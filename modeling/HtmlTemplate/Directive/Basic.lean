import HtmlTemplate.Markup.Attribute
import HtmlTemplate.Markup.Span

/-!
# Directives

A directive is an attribute `*for` or `*if` of an opening tag. `Directive.find?` gives the first
opening tag of scanned markup that carries one kind of directive; the pieces it returns make up the
markup it was given (`Directive.eq_append_of_find?`).
-/

namespace HtmlTemplate

namespace Markup

/-- Cuts markup at the first tag that `f` accepts: what precedes it, what `f` makes of it, and what
follows it. -/
def cutAtTag {β : Type} (f : Tag → Option β) : Markup → Option (Markup × β × Markup)
  | [] => none
  | .char c :: m => (cutAtTag f m).map fun (front, b, rest) => (.char c :: front, b, rest)
  | .lexeme tag :: m =>
    match f tag with
    | some b => some ([], b, m)
    | none => (cutAtTag f m).map fun (front, b, rest) => (.lexeme tag :: front, b, rest)

theorem eq_append_of_cutAtTag {β : Type} {f : Tag → Option β} {m front rest : Markup} {b : β}
    (h : cutAtTag f m = some (front, b, rest)) :
    ∃ tag, f tag = some b ∧ m = front ++ .lexeme tag :: rest := by
  induction m generalizing front with
  | nil => simp [cutAtTag] at h
  | cons piece m ih =>
    cases piece with
    | char c =>
      simp only [cutAtTag, Option.map_eq_some_iff, Prod.exists, Prod.mk.injEq] at h
      obtain ⟨i, b', r, hr, rfl, rfl, rfl⟩ := h
      obtain ⟨tag, hb, rfl⟩ := ih hr
      exact ⟨tag, hb, rfl⟩
    | lexeme tag =>
      unfold cutAtTag at h
      split at h
      · next hb =>
        simp only [Option.some.injEq, Prod.mk.injEq] at h
        obtain ⟨rfl, rfl, rfl⟩ := h
        exact ⟨tag, hb, rfl⟩
      · simp only [Option.map_eq_some_iff, Prod.exists, Prod.mk.injEq] at h
        obtain ⟨i, b', r, hr, rfl, rfl, rfl⟩ := h
        obtain ⟨tag, hb, rfl⟩ := ih hr
        exact ⟨tag, hb, rfl⟩

end Markup

/-- The two kinds of directive. -/
inductive DirectiveKind where
  /-- `*for`: repeats an element. -/
  | loop
  /-- `*if`: keeps or drops an element. -/
  | guard
  deriving Repr, DecidableEq

/-- The name of the attribute that carries a directive. -/
def DirectiveKind.attributeName : DirectiveKind → Text
  | loop => ['*', 'f', 'o', 'r']
  | guard => ['*', 'i', 'f']

/-- An opening tag cut at a directive attribute. -/
structure Directive where
  tag : Tag
  /-- The tag's characters before the attribute. -/
  front : Text
  attr : Attribute
  /-- The tag's characters after the attribute. -/
  back : Text
  deriving Repr, DecidableEq

namespace Directive

/-- The directive's value, as written between the quotes. -/
def value (d : Directive) : Text := d.attr.quoted.value

/-- The opening tag without the directive attribute. -/
def stripped (d : Directive) : Text := d.front ++ d.back

/-- The first directive of one kind that an opening tag carries. -/
def ofTag? (kind : DirectiveKind) (tag : Tag) : Option Directive :=
  if tag.closing then none
  else
    ((Attribute.pattern kind.attributeName).find? tag.print).map fun (front, attr, back) =>
      ⟨tag, front, attr, back⟩

/-- The first directive of one kind in markup, with the markup before and after its tag. -/
def find? (kind : DirectiveKind) (m : Markup) : Option (Markup × Directive × Markup) :=
  m.cutAtTag (ofTag? kind)

theorem print_tag_of_ofTag? {kind : DirectiveKind} {tag : Tag} {d : Directive}
    (h : ofTag? kind tag = some d) :
    d.tag = tag ∧ tag.closing = false ∧
      tag.print = d.front ++ d.attr.print kind.attributeName ++ d.back := by
  unfold ofTag? at h
  split at h
  · simp at h
  · next hc =>
    simp only [Option.map_eq_some_iff, Prod.exists] at h
    obtain ⟨front, attr, back, hf, rfl⟩ := h
    exact ⟨rfl, by simpa using hc, (Attribute.pattern _).eq_append_of_find? hf⟩

theorem eq_append_of_find? {kind : DirectiveKind} {m front rest : Markup} {d : Directive}
    (h : find? kind m = some (front, d, rest)) : m = front ++ .lexeme d.tag :: rest := by
  obtain ⟨tag, ht, rfl⟩ := Markup.eq_append_of_cutAtTag h
  rw [(print_tag_of_ofTag? ht).1]

theorem ofTag?_of_find? {kind : DirectiveKind} {m front rest : Markup} {d : Directive}
    (h : find? kind m = some (front, d, rest)) : ofTag? kind d.tag = some d := by
  obtain ⟨tag, ht, -⟩ := Markup.eq_append_of_cutAtTag h
  rwa [(print_tag_of_ofTag? ht).1]

/-- Stripping a directive makes the tag shorter. -/
theorem length_stripped_lt {kind : DirectiveKind} {d : Directive}
    (h : ofTag? kind d.tag = some d) : d.stripped.length < d.tag.print.length := by
  rw [(print_tag_of_ofTag? h).2.2]
  simp [stripped, Attribute.print]
  omega

/-! ## Offsets -/

/-- A directive with the byte offsets of its tag, its attribute and the end of its element. -/
structure Located where
  directive : Directive
  token : Markup.Token
  attributeStart : Nat
  attributeStop : Nat
  spanEnd : Option Nat

/-- The first directive of one kind in `t` from byte `start` on, with its offsets in `t`. -/
def locate (kind : DirectiveKind) (t : Text) (start : Nat) : Option Located :=
  (find? kind (Markup.ofText (t.drop (t.charsInBytes start)))).map fun (front, d, _) =>
    let tagStart := start + Text.byteLength front.text
    let token := ⟨d.tag, tagStart, tagStart + Text.byteLength d.tag.print⟩
    let attributeStart := tagStart + Text.byteLength d.front
    ⟨d, token, attributeStart,
      attributeStart + Text.byteLength (d.attr.print kind.attributeName), token.spanEnd t⟩

end Directive
end HtmlTemplate
