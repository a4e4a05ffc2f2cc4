import HtmlTemplate.Text.Basic
import Mathlib

/-!
# Laws of texts

When a mark is found in a text, it is found in the same place whatever follows it; when none is
found, there is none. The ends of a trimmed text are the outermost characters that are no blanks.
-/

namespace HtmlTemplate.Text

/-! ## Classes -/

theorem not_inRanges_of_apart {A B : List (Nat × Nat)}
    (h : (A.all fun a => B.all fun b => a.2 < b.1 || b.2 < a.1) = true) {n : Nat}
    (hA : inRanges A n = true) : inRanges B n = false := by
  rw [Bool.eq_false_iff]
  intro hB
  simp only [inRanges, List.any_eq_true, Bool.and_eq_true, decide_eq_true_eq] at hA hB
  obtain ⟨a, ha, hna⟩ := hA
  obtain ⟨b, hb, hnb⟩ := hB
  have := List.all_eq_true.1 (List.all_eq_true.1 h a ha) b hb
  simp only [Bool.or_eq_true, decide_eq_true_eq] at this
  omega

theorem not_isWord_of_isBlank {c : Char} (h : isBlank c = true) : isWord c = false := by
  unfold isBlank at h
  unfold isWord
  split at h
  · next hascii =>
    rw [if_pos hascii]
    have hn : c.toNat = 0x20 ∨ c.toNat = 9 ∨ c.toNat = 10 ∨ c.toNat = 11 ∨ c.toNat = 12 ∨
        c.toNat = 13 := by
      simp only [Bool.or_eq_true, beq_iff_eq, Bool.and_eq_true, decide_eq_true_eq] at h
      omega
    have hc : c = Char.ofNat c.toNat := (Char.ofNat_toNat c).symm
    rcases hn with hn | hn | hn | hn | hn | hn <;> (rw [hc, hn]; decide)
  · next hascii =>
    rw [if_neg hascii, not_inRanges_of_apart (by decide +kernel) h,
      not_inRanges_of_apart (by decide +kernel) h, not_inRanges_of_apart (by decide +kernel) h,
      not_inRanges_of_apart (by decide +kernel) h, not_inRanges_of_apart (by decide +kernel) h]
    rfl

/-! ## Marks -/

theorem after?_append_of_le {mark s : Text} (h : mark.length ≤ s.length) (t : Text) :
    after? mark (s ++ t) = (after? mark s).map (· ++ t) := by
  induction mark generalizing s with
  | nil => rfl
  | cons m mark ih =>
    cases s with
    | nil => simp at h
    | cons c s =>
      simp only [List.cons_append, after?]
      split
      · exact ih (by simpa using h)
      · rfl

theorem cut?_append {mark t front rest : Text} (h : cut? mark t = some (front, rest)) (u : Text) :
    cut? mark (front ++ mark ++ u) = some (front, u) := by
  induction t generalizing front with
  | nil =>
    obtain ⟨r, hr, he⟩ := Option.map_eq_some_iff.1 h
    obtain ⟨rfl, rfl⟩ := Prod.mk.inj he
    obtain ⟨rfl, rfl⟩ := List.append_eq_nil_iff.1 (eq_append_of_after? hr).symm
    cases u <;> rfl
  | cons c t ih =>
    unfold cut? at h
    split at h
    · next r hr =>
      obtain ⟨rfl, rfl⟩ := Prod.mk.inj (Option.some.inj h)
      cases hm : mark ++ u with
      | nil =>
        obtain ⟨rfl, rfl⟩ := List.append_eq_nil_iff.1 hm
        rfl
      | cons d v =>
        rw [List.nil_append, hm, cut?, ← hm, after?_append]
    · next hnone =>
      obtain ⟨⟨f, r⟩, hr, he⟩ := Option.map_eq_some_iff.1 h
      obtain ⟨rfl, rfl⟩ := Prod.mk.inj he
      have ht := eq_append_of_cut? hr
      have hle : mark.length ≤ (c :: (f ++ mark)).length := by simp; omega
      have hsome : after? mark (c :: (f ++ mark)) = none := by
        rw [ht, ← List.cons_append, ← List.cons_append, List.append_assoc] at hnone
        rw [← List.append_assoc, after?_append_of_le (by simpa using hle)] at hnone
        simpa using hnone
      have hnone' : after? mark (c :: (f ++ mark ++ u)) = none := by
        rw [← List.cons_append, after?_append_of_le hle, hsome]
        rfl
      rw [List.cons_append, List.cons_append, cut?, hnone', ih hr]
      rfl

theorem cut?_isSome_append (mark front rest : Text) :
    (cut? mark (front ++ mark ++ rest)).isSome = true := by
  induction front with
  | nil =>
    cases h : mark ++ rest with
    | nil =>
      obtain ⟨rfl, rfl⟩ := List.append_eq_nil_iff.1 h
      rfl
    | cons c t => rw [List.nil_append, h, cut?, ← h, after?_append]; rfl
  | cons c front ih =>
    rw [List.cons_append, List.cons_append, cut?]
    split
    · rfl
    · simpa using ih

theorem length_le_of_cut? {mark u v front rest : Text}
    (h : cut? mark (u ++ mark ++ v) = some (front, rest)) : front.length ≤ u.length := by
  induction u generalizing front with
  | nil =>
    cases hm : mark ++ v with
    | nil =>
      rw [List.nil_append, hm, cut?] at h
      obtain ⟨r, -, he⟩ := Option.map_eq_some_iff.1 h
      simp [← (Prod.mk.inj he).1]
    | cons c t =>
      rw [List.nil_append, hm, cut?, ← hm, after?_append] at h
      simp [← (Prod.mk.inj (Option.some.inj h)).1]
  | cons c u ih =>
    rw [List.cons_append, List.cons_append, cut?] at h
    split at h
    · simp [← (Prod.mk.inj (Option.some.inj h)).1]
    · obtain ⟨⟨f, r⟩, hr, he⟩ := Option.map_eq_some_iff.1 h
      obtain ⟨rfl, rfl⟩ := Prod.mk.inj he
      simpa using ih hr

theorem after?_append_cons {mark : Text} {c : Char} (h : c ∉ mark) (s t : Text) :
    after? mark (s ++ c :: t) = (after? mark s).map (· ++ c :: t) := by
  induction mark generalizing s with
  | nil => rfl
  | cons m mark ih =>
    have hm : m ≠ c := fun he => h (by simp [he])
    cases s with
    | nil => simp [after?, hm]
    | cons d s =>
      simp only [List.cons_append, after?]
      split
      · exact ih (fun hc => h (List.mem_cons_of_mem _ hc)) s
      · rfl

theorem after?_cons_append_cons {m : Char} {mark : Text} {c : Char} (h : c ∉ mark) (d : Char) (s t : Text) :
    after? (m :: mark) (d :: s ++ c :: t) = (after? (m :: mark) (d :: s)).map (· ++ c :: t) := by
  simp only [List.cons_append, after?]
  split
  · exact after?_append_cons h s t
  · rfl

theorem exists_of_append_eq_cons_append {α : Type} {s t u v : List α} {c : α} (h : s ++ t = u ++ c :: v) :
    (∃ w, u = s ++ w ∧ t = w ++ c :: v) ∨ ∃ w, s = u ++ c :: w ∧ v = w ++ t := by
  rcases List.append_eq_append_iff.1 h with ⟨w, hu, ht⟩ | ⟨w, hs, hw⟩
  · exact .inl ⟨w, hu, ht⟩
  · cases w with
    | nil => exact .inl ⟨[], by simp [hs], by simpa using hw.symm⟩
    | cons d w =>
      obtain ⟨rfl, hv⟩ := List.cons.inj hw
      exact .inr ⟨w, hs, hv⟩

theorem exists_of_append_eq_append_cons {α : Type} {s t u v : List α} {c : α} (h : s ++ t = u ++ c :: v)
    (hc : c ∉ s) : ∃ w, u = s ++ w ∧ t = w ++ c :: v := by
  rcases exists_of_append_eq_cons_append h with hbehind | ⟨w, rfl, -⟩
  · exact hbehind
  · simp at hc

/-! ## Runs -/

theorem takeWhile_append_cons {p : Char → Bool} {c : Char} (hc : p c = false) (s t : Text) :
    (s ++ c :: t).takeWhile p = s.takeWhile p := by
  induction s with
  | nil => simp [hc]
  | cons d s ih => simp only [List.cons_append, List.takeWhile_cons, ih]

theorem dropWhile_append_cons {p : Char → Bool} {c : Char} (hc : p c = false) (s t : Text) :
    (s ++ c :: t).dropWhile p = s.dropWhile p ++ c :: t := by
  induction s with
  | nil => simp [hc]
  | cons d s ih =>
    simp only [List.cons_append, List.dropWhile_cons, ih]
    split <;> rfl

/-! ## Trimming -/

theorem eq_false_of_head?_dropWhile {p : Char → Bool} {t : Text} {c : Char} (h : (t.dropWhile p).head? = some c) :
    p c = false := by
  have hlast := List.head?_dropWhile_not p t
  rw [h] at hlast
  simpa using hlast

def isSolid (c : Char) : Bool := !isBlank c

theorem head?_trim (t : Text) : t.trim.head? = t.find? isSolid := by
  have hleft : t.trimLeft.head? = t.find? isSolid :=
    (List.find?_not_eq_head?_dropWhile isBlank t).symm
  rw [← hleft, trim, trimRight]
  cases hu : t.trimLeft with
  | nil => rfl
  | cons c u =>
    have hc : isBlank c = false :=
      eq_false_of_head?_dropWhile (by rw [show t.dropWhile isBlank = c :: u from hu]; rfl)
    rw [List.reverse_cons, List.dropWhile_append]
    split <;> simp [hc]

theorem getLast?_trim (t : Text) : t.trim.getLast? = t.reverse.find? isSolid := by
  have hblank : (t.takeWhile isBlank).reverse.find? isSolid = none := by
    simp only [List.find?_eq_none, List.mem_reverse, isSolid]
    intro c hc
    simp [List.mem_takeWhile_imp hc]
  have ht : t.reverse = t.trimLeft.reverse ++ (t.takeWhile isBlank).reverse := by
    rw [← List.reverse_append, trimLeft, List.takeWhile_append_dropWhile]
  rw [ht, List.find?_append, hblank, Option.or_none, trim, trimRight, List.getLast?_reverse]
  exact (List.find?_not_eq_head?_dropWhile isBlank _).symm

theorem exists_trim (t : Text) :
    ∃ b b' : Text, (∀ c ∈ b, isBlank c = true) ∧ (∀ c ∈ b', isBlank c = true) ∧ t = b ++ (t.trim ++ b') := by
  have hleft := List.takeWhile_append_dropWhile (p := isBlank) (l := t)
  have hright := List.takeWhile_append_dropWhile (p := isBlank) (l := t.trimLeft.reverse)
  refine ⟨t.takeWhile isBlank, (t.trimLeft.reverse.takeWhile isBlank).reverse,
    fun c => List.mem_takeWhile_imp, fun c hc => List.mem_takeWhile_imp (List.mem_reverse.1 hc), ?_⟩
  rw [trim, trimRight, ← List.reverse_append, hright, List.reverse_reverse, trimLeft, hleft]

end HtmlTemplate.Text
