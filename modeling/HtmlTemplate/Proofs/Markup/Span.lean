import HtmlTemplate.Markup.Span
import Mathlib

/-!
# Ends of spans

A tag begins with `<` and ends with `>`, and so the text inside a span ends with the `>` of its closing
tag. Where a span ends does not depend on what follows it.
-/

namespace HtmlTemplate

@[simp] theorem Tag.head?_print (tag : Tag) : tag.print.head? = some '<' := rfl

@[simp] theorem Tag.getLast?_print (tag : Tag) : tag.print.getLast? = some '>' := by
  simp [Tag.print, List.getLast?_cons, List.getLast?_append]

namespace Markup

theorem exists_closing_of_cutAtClose {name : Text} {depth : Nat} {m inside rest : Markup}
    (h : cutAtClose name depth m = some (inside, rest)) : ∃ i closing, inside = i ++ [.lexeme closing] := by
  induction m generalizing depth inside with
  | nil => simp [cutAtClose] at h
  | cons piece m ih =>
    cases piece with
    | char c =>
      obtain ⟨⟨inside', r⟩, hr, he⟩ := Option.map_eq_some_iff.1 h
      obtain ⟨rfl, rfl⟩ := Prod.mk.inj he
      obtain ⟨i, closing, rfl⟩ := ih hr
      exact ⟨.char c :: i, closing, rfl⟩
    | lexeme tag =>
      unfold cutAtClose at h
      split at h
      · split at h
        · obtain ⟨rfl, rfl⟩ := Prod.mk.inj (Option.some.inj h)
          exact ⟨[], tag, rfl⟩
        · obtain ⟨⟨inside', r⟩, hr, he⟩ := Option.map_eq_some_iff.1 h
          obtain ⟨rfl, rfl⟩ := Prod.mk.inj he
          obtain ⟨i, closing, rfl⟩ := ih hr
          exact ⟨.lexeme tag :: i, closing, rfl⟩
      · obtain ⟨⟨inside', r⟩, hr, he⟩ := Option.map_eq_some_iff.1 h
        obtain ⟨rfl, rfl⟩ := Prod.mk.inj he
        obtain ⟨i, closing, rfl⟩ := ih hr
        exact ⟨.lexeme tag :: i, closing, rfl⟩

theorem exists_closing_of_cutSpan {tag : Tag} {m inside rest : Markup}
    (h : cutSpan tag m = some (inside, rest)) : inside = [] ∨ ∃ i closing, inside = i ++ [.lexeme closing] := by
  unfold cutSpan at h
  split at h
  · exact .inr (exists_closing_of_cutAtClose h)
  · exact .inl (Prod.mk.inj (Option.some.inj h)).1.symm

theorem getLast?_text_of_cutSpan {tag : Tag} {m inside rest : Markup}
    (h : cutSpan tag m = some (inside, rest)) :
    (tag.print ++ inside.text).getLast? = some '>' := by
  rcases exists_closing_of_cutSpan h with rfl | ⟨i, closing, rfl⟩
  · simp
  · simp [List.getLast?_append]

/-! ## What follows -/

theorem cutAtClose_append {name : Text} {depth : Nat} {m inside after : Markup}
    (h : cutAtClose name depth m = some (inside, after)) (n : Markup) :
    cutAtClose name depth (m ++ n) = some (inside, after ++ n) := by
  induction m generalizing depth inside with
  | nil => simp [cutAtClose] at h
  | cons piece m ih =>
    rw [List.cons_append]
    cases piece with
    | char c =>
      simp only [cutAtClose, Option.map_eq_some_iff, Prod.exists, Prod.mk.injEq] at h
      obtain ⟨inside, after, hm, rfl, rfl⟩ := h
      rw [cutAtClose, ih hm, Option.map_some]
    | lexeme tag =>
      unfold cutAtClose at h ⊢
      split at h
      · next hclose =>
        rw [if_pos hclose]
        split at h
        · simp only [Option.some.injEq, Prod.mk.injEq] at h
          obtain ⟨rfl, rfl⟩ := h
          rfl
        · simp only [Option.map_eq_some_iff, Prod.exists, Prod.mk.injEq] at h
          obtain ⟨inside, after, hm, rfl, rfl⟩ := h
          rw [ih hm, Option.map_some]
      · next hclose =>
        rw [if_neg hclose]
        simp only [Option.map_eq_some_iff, Prod.exists, Prod.mk.injEq] at h
        obtain ⟨inside, after, hm, rfl, rfl⟩ := h
        rw [ih hm, Option.map_some]

theorem cutSpan_append {tag : Tag} {m inside after : Markup} (h : cutSpan tag m = some (inside, after))
    (n : Markup) : cutSpan tag (m ++ n) = some (inside, after ++ n) := by
  unfold cutSpan at h ⊢
  split at h
  · next hopens =>
    rw [if_pos hopens]
    exact cutAtClose_append h n
  · next hopens =>
    obtain ⟨rfl, rfl⟩ := Prod.mk.inj (Option.some.inj h)
    rw [if_neg hopens]

end Markup
end HtmlTemplate
