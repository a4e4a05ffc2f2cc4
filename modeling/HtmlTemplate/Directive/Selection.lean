import HtmlTemplate.Error
import HtmlTemplate.Scope

/-!
# Selection

A `*if` guard is a path, perhaps negated. Selection takes the guards of a text one after another: where
a guard holds its attribute goes, elsewhere the whole element goes.
-/

namespace HtmlTemplate

/-- A path whose value must count as true, or must not. -/
structure Guard where
  path : Text
  negated : Bool
  deriving Repr, DecidableEq

namespace Guard

/-- Reads a guard. A leading exclamation mark negates it. -/
def parse (expression : Text) : Guard :=
  match expression.trim with
  | '!' :: path => ⟨Text.trim path, true⟩
  | path => ⟨path, false⟩

def holds (g : Guard) (s : Scope) : Bool := isTruthy (s.lookup? g.path) != g.negated

end Guard

namespace Directive

/-- A text cut at a directive is longer than what is left when the directive, or the whole element,
goes. -/
theorem length_lt_of_find? {kind : DirectiveKind} {t : Text} {front rest inside after : Markup}
    {d : Directive} (h : find? kind (Markup.ofText t) = some (front, d, rest))
    (hs : Markup.cutSpan d.tag rest = some (inside, after)) :
    (front.text ++ d.stripped ++ rest.text).length < t.length ∧
      (front.text ++ after.text).length < t.length := by
  have ht : t = front.text ++ d.tag.print ++ rest.text := by
    rw [← Markup.text_ofText t, eq_append_of_find? h]
    simp
  have hr : rest.text = inside.text ++ after.text := by
    rw [Markup.eq_append_of_cutSpan hs, Markup.text_append]
  have hlt := length_stripped_lt (ofTag?_of_find? h)
  rw [ht, hr]
  simp only [List.length_append]
  omega

/-- Keeps or drops every guarded element of a text. -/
def select (s : Scope) (t : Text) : Except Error Text :=
  match _hf : find? .guard (Markup.ofText t) with
  | none => .ok t
  | some (front, d, rest) =>
    match _hs : Markup.cutSpan d.tag rest with
    | none => .error (.unterminated .guard d.value.trim d.tag.name)
    | some (_, after) =>
      if (Guard.parse d.value).holds s then select s (front.text ++ d.stripped ++ rest.text)
      else select s (front.text ++ after.text)
termination_by t.length
decreasing_by
  · exact (length_lt_of_find? _hf _hs).1
  · exact (length_lt_of_find? _hf _hs).2

end Directive
end HtmlTemplate
