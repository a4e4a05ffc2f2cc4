import HtmlTemplate.Directive.Reference
import HtmlTemplate.Proofs.Markup.Holes
import Mathlib

/-!
# From one tag to the next

Markup is cut at the first tag that a test accepts, and what stands before that tag does not change where it is cut.
Retargeting goes through markup in this way, from one shadowing loop to the next (`Reference.retargetMarkup_loop`).
-/

namespace HtmlTemplate

namespace Markup

theorem eq_none_of_cutAtTag {β : Type} {f : Tag → Option β} {m front rest : Markup} {b : β}
    (h : cutAtTag f m = some (front, b, rest)) : ∀ tag ∈ front.tags, f tag = none := by
  induction m generalizing front with
  | nil => simp [cutAtTag] at h
  | cons piece m ih =>
    cases piece with
    | char c =>
      simp only [cutAtTag, Option.map_eq_some_iff, Prod.exists, Prod.mk.injEq] at h
      obtain ⟨i, b', r, hr, rfl, rfl, rfl⟩ := h
      simpa using ih hr
    | lexeme tag =>
      unfold cutAtTag at h
      split at h
      · simp only [Option.some.injEq, Prod.mk.injEq] at h
        simp [← h.1]
      · next hnone =>
        simp only [Option.map_eq_some_iff, Prod.exists, Prod.mk.injEq] at h
        obtain ⟨i, b', r, hr, rfl, rfl, rfl⟩ := h
        simpa [hnone] using ih hr

theorem eq_none_of_cutAtTag_eq_none {β : Type} {f : Tag → Option β} {m : Markup}
    (h : cutAtTag f m = none) : ∀ tag ∈ m.tags, f tag = none := by
  induction m with
  | nil => simp
  | cons piece m ih =>
    cases piece with
    | char c => simpa using ih (by simpa [cutAtTag] using h)
    | lexeme tag =>
      unfold cutAtTag at h
      split at h
      · simp at h
      · next hnone => simpa [hnone] using ih (by simpa using h)

theorem cutAtTag_append {β : Type} {f : Tag → Option β} {n : Markup} (h : ∀ tag ∈ n.tags, f tag = none)
    (m : Markup) :
    cutAtTag f (n ++ m) = (cutAtTag f m).map fun (front, b, rest) => (n ++ front, b, rest) := by
  induction n with
  | nil => cases hm : cutAtTag f m <;> simp [hm]
  | cons piece n ih =>
    cases piece with
    | char c =>
      rw [List.cons_append, cutAtTag, ih (by simpa using h), Option.map_map]
      rfl
    | lexeme tag =>
      rw [tags_tag, List.forall_mem_cons] at h
      rw [List.cons_append, cutAtTag, h.1, ih h.2]
      simp only [Option.map_map]
      rfl

theorem cutAtTag_eq_none {β : Type} {f : Tag → Option β} {m : Markup} (h : ∀ tag ∈ m.tags, f tag = none) :
    cutAtTag f m = none := by
  have := cutAtTag_append h []
  rwa [List.append_nil] at this

theorem cutAtTag_append_right {β : Type} {f : Tag → Option β} {m front rest : Markup} {b : β}
    (h : cutAtTag f m = some (front, b, rest)) (n : Markup) :
    cutAtTag f (m ++ n) = some (front, b, rest ++ n) := by
  induction m generalizing front with
  | nil => simp [cutAtTag] at h
  | cons piece m ih =>
    cases piece with
    | char c =>
      simp only [cutAtTag, Option.map_eq_some_iff, Prod.exists, Prod.mk.injEq] at h
      obtain ⟨front, b, rest, hm, rfl, rfl, rfl⟩ := h
      rw [List.cons_append, cutAtTag, ih hm, Option.map_some]
    | lexeme tag =>
      rw [List.cons_append]
      unfold cutAtTag at h ⊢
      split at h
      · simp only [Option.some.injEq, Prod.mk.injEq] at h
        obtain ⟨rfl, rfl, rfl⟩ := h
        rfl
      · simp only [Option.map_eq_some_iff, Prod.exists, Prod.mk.injEq] at h
        obtain ⟨front, b, rest, hm, rfl, rfl, rfl⟩ := h
        rw [ih hm, Option.map_some]

end Markup

namespace Reference

open Markup (cutAtTag cutSpan)

variable {item binding : Text} {m front rest inside after : Markup} {loop : Tag} {d : Directive}

theorem ofTag?_of_shadowing? {tag : Tag} (h : shadowing? item tag = some d) : Directive.ofTag? .loop tag = some d :=
  (Option.filter_eq_some_iff.1 h).1

theorem eq_append_of_cutAtTag (h : cutAtTag (shadowing? item) m = some (front, d, rest)) :
    m = front ++ .lexeme d.tag :: rest ∧ shadowing? item d.tag = some d := by
  obtain ⟨tag, hd, rfl⟩ := Markup.eq_append_of_cutAtTag h
  obtain rfl := (Directive.print_tag_of_ofTag? (ofTag?_of_shadowing? hd)).1
  exact ⟨rfl, hd⟩

theorem retargetMarkup_plain (h : ∀ tag ∈ m.tags, shadowing? item tag = none) :
    retargetMarkup item binding m = .ok (retargetAll item binding m.text) := by
  have hcut := Markup.cutAtTag_eq_none h
  rw [retargetMarkup]
  split
  · rfl
  · next hsome => simp [hcut] at hsome

/-- At the first shadowing loop. -/
theorem retargetMarkup_loop (hfront : ∀ tag ∈ front.tags, shadowing? item tag = none)
    (hloop : (shadowing? item loop).isSome = true) (hspan : cutSpan loop rest = some (inside, after)) :
    retargetMarkup item binding (front ++ .lexeme loop :: rest) =
      (retargetMarkup item binding after).map fun t =>
        retargetAll item binding front.text ++ retargetSources item binding loop.print ++ inside.text ++ t := by
  obtain ⟨d, hd⟩ := Option.isSome_iff_exists.1 hloop
  have htag : d.tag = loop := (Directive.print_tag_of_ofTag? (ofTag?_of_shadowing? hd)).1
  have hcut : cutAtTag (shadowing? item) (front ++ .lexeme loop :: rest) = some (front, d, rest) := by
    rw [Markup.cutAtTag_append hfront, cutAtTag, hd]
    simp
  rw [retargetMarkup]
  split
  · next hnone => simp [hcut] at hnone
  · next front' d' rest' hsome =>
    obtain ⟨rfl, rfl, rfl⟩ : front' = front ∧ d' = d ∧ rest' = rest := by
      simpa [eq_comm] using hcut.symm.trans hsome
    split
    · next hnone => simp [htag, hspan] at hnone
    · next inside' after' hsome' =>
      rw [htag, hspan] at hsome'
      obtain ⟨rfl, rfl⟩ := Prod.mk.inj (Option.some.inj hsome')
      rw [htag]
      cases retargetMarkup item binding after <;> rfl

end Reference
end HtmlTemplate
