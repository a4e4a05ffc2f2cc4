import HtmlTemplate.Markup.Tag

/-!
# Spans

The span of an element runs from its opening tag to the matching closing tag, found by counting the
tags of the same name in between. Void and self-closing tags span themselves.
-/

namespace HtmlTemplate.Markup

/-- Cuts markup after the closing tag of an element `name` whose opening tag precedes it, with
`depth` inner elements of that name still open. -/
def cutAtClose (name : Text) : Nat → Markup → Option (Markup × Markup)
  | _, [] => none
  | depth, .char c :: m =>
    (cutAtClose name depth m).map fun (inside, rest) => (.char c :: inside, rest)
  | depth, .lexeme tag :: m =>
    if tag.named name && tag.closing then
      match depth with
      | 0 => some ([.lexeme tag], m)
      | depth + 1 =>
        (cutAtClose name depth m).map fun (inside, rest) => (.lexeme tag :: inside, rest)
    else
      (cutAtClose name (if tag.named name && tag.opensScope then depth + 1 else depth) m).map
        fun (inside, rest) => (.lexeme tag :: inside, rest)

/-- Cuts the markup after a tag at the end of the tag's span. -/
def cutSpan (tag : Tag) (m : Markup) : Option (Markup × Markup) :=
  if tag.opensScope then cutAtClose tag.name 0 m else some ([], m)

theorem eq_append_of_cutAtClose {name : Text} {depth : Nat} {m inside rest : Markup}
    (h : cutAtClose name depth m = some (inside, rest)) : m = inside ++ rest := by
  induction m generalizing depth inside with
  | nil => simp [cutAtClose] at h
  | cons piece m ih =>
    cases piece with
    | char c =>
      obtain ⟨⟨i, r⟩, hr, he⟩ := Option.map_eq_some_iff.1 h
      obtain ⟨rfl, rfl⟩ := Prod.mk.inj he
      simp [ih hr]
    | lexeme tag =>
      unfold cutAtClose at h
      split at h
      · split at h
        · obtain ⟨rfl, rfl⟩ := Prod.mk.inj (Option.some.inj h)
          rfl
        · obtain ⟨⟨i, r⟩, hr, he⟩ := Option.map_eq_some_iff.1 h
          obtain ⟨rfl, rfl⟩ := Prod.mk.inj he
          simp [ih hr]
      · obtain ⟨⟨i, r⟩, hr, he⟩ := Option.map_eq_some_iff.1 h
        obtain ⟨rfl, rfl⟩ := Prod.mk.inj he
        simp [ih hr]

theorem eq_append_of_cutSpan {tag : Tag} {m inside rest : Markup}
    (h : cutSpan tag m = some (inside, rest)) : m = inside ++ rest := by
  unfold cutSpan at h
  split at h
  · exact eq_append_of_cutAtClose h
  · obtain ⟨rfl, rfl⟩ := Prod.mk.inj (Option.some.inj h)
    rfl

/-- The byte offset just past the element that a token of `t` opens; none when it is never closed. -/
def Token.spanEnd (token : Token) (t : Text) : Option Nat :=
  (cutSpan token.tag (ofText (t.drop (t.charsInBytes token.stop)))).map fun (inside, _) =>
    token.stop + Text.byteLength inside.text

end HtmlTemplate.Markup
