import HtmlTemplate.Directive.Reference
import HtmlTemplate.Proofs.Text.Basic
import HtmlTemplate.Proofs.Markup.Attribute
import HtmlTemplate.Proofs.Text.Pattern
import Mathlib

/-!
# Texts that differ in paths

Retargeting writes other paths in the place of paths and touches nothing else. Texts that differ in
this way have their attributes in the same places (`Alike.find?`), so what holds of the directives of
a tag as written holds of its copies in a loop.
-/

namespace HtmlTemplate

namespace Text

/-- The characters that mark off tags, attributes and values. -/
def isMark (c : Char) : Bool :=
  c == '*' || c == '=' || c == '"' || c == '\'' || c == '/' || c == '<' || c == '>'

/-- The characters that a path may stand behind. -/
def isMargin (c : Char) : Bool := isBlank c || isQuote c || c == '!' || c == '\x7b'

end Text

theorem not_isBlank_of_isPathChar {c : Char} (h : isPathChar c = true) : Text.isBlank c = false := by
  by_contra hblank
  rw [Bool.not_eq_false] at hblank
  simp only [isPathChar, Text.not_isWord_of_isBlank hblank, Bool.false_or, beq_iff_eq] at h
  rw [h] at hblank
  exact absurd hblank (by decide)

theorem not_isPathChar_of_isBlank {c : Char} (h : Text.isBlank c = true) : isPathChar c = false := by
  by_contra hpath
  rw [Bool.not_eq_false] at hpath
  simp [not_isBlank_of_isPathChar hpath] at h

theorem not_isPathChar_of_isQuote {c : Char} (h : Text.isQuote c = true) : isPathChar c = false := by
  rcases Text.isQuote_iff.1 h with rfl | rfl <;> decide

theorem not_isMark_of_isPathChar {c : Char} (h : isPathChar c = true) : Text.isMark c = false := by
  by_contra hmark
  rw [Bool.not_eq_false] at hmark
  simp only [Text.isMark, Bool.or_eq_true, beq_iff_eq] at hmark
  rcases hmark with ((((((rfl | rfl) | rfl) | rfl) | rfl) | rfl) | rfl) <;> exact absurd h (by decide)

namespace Text

/-- What may stand behind the character `c`: a path, or what follows the first brace of a placeholder
up to the one that ends it. -/
structure Filling (c : Char) (u : Text) : Prop where
  marks : ∀ d ∈ u, isMark d = false
  head : c = '\x7b' ∨ u.head?.any isPathChar = true
  last : ∃ d, u.getLast? = some d ∧ isBlank d = false

/-- Texts that are the same but for the paths in them. -/
inductive Alike : Text → Text → Prop where
  | nil : Alike [] []
  | cons (c : Char) {s t : Text} : Alike s t → Alike (c :: s) (c :: t)
  | path {c : Char} {u v s t : Text} : isMargin c = true → Filling c u → Filling c v →
      (u.getLast? = some '\x7d' ↔ v.getLast? = some '\x7d') → Alike s t →
      Alike (c :: (u ++ s)) (c :: (v ++ t))

theorem Filling.ne_nil {c : Char} {u : Text} (h : Filling c u) : u ≠ [] := by
  rintro rfl
  obtain ⟨d, hd, -⟩ := h.last
  simp at hd

theorem Filling.not_mem {c d : Char} {u : Text} (h : Filling c u) (hd : isMark d = true) : d ∉ u :=
  fun hmem => by simp [h.marks d hmem] at hd

namespace Alike

variable {s t s' t' : Text}

@[refl] theorem refl (t : Text) : Alike t t := by
  induction t with
  | nil => exact .nil
  | cons c t ih => exact .cons c ih

theorem symm (h : Alike s t) : Alike t s := by
  induction h with
  | nil => exact .nil
  | cons c _ ih => exact .cons c ih
  | path hc hu hv hlast _ ih => exact .path hc hv hu hlast.symm ih

theorem append (h : Alike s t) (h' : Alike s' t') : Alike (s ++ s') (t ++ t') := by
  induction h with
  | nil => exact h'
  | cons c _ ih => exact .cons c ih
  | path hc hu hv hlast _ ih =>
    rw [List.cons_append, List.cons_append, List.append_assoc, List.append_assoc]
    exact .path hc hu hv hlast ih

theorem head?_eq (h : Alike s t) : s.head? = t.head? := by
  cases h <;> rfl

theorem eq_nil_iff (h : Alike s t) : s = [] ↔ t = [] := by
  cases h <;> simp

theorem count_eq (h : Alike s t) {c : Char} (hc : isMark c = true) : s.count c = t.count c := by
  induction h with
  | nil => rfl
  | cons d _ ih => rw [List.count_cons, List.count_cons, ih]
  | path _ hu hv _ _ ih =>
    rw [List.count_cons, List.count_cons, List.count_append, List.count_append, ih,
      List.count_eq_zero_of_not_mem (hu.not_mem hc), List.count_eq_zero_of_not_mem (hv.not_mem hc)]

theorem mem_iff (h : Alike s t) {c : Char} (hc : isMark c = true) : c ∈ s ↔ c ∈ t := by
  rw [← List.count_pos_iff, h.count_eq hc, List.count_pos_iff]

theorem getLast?_eq_iff (h : Alike s t) {c : Char} (hc : isMark c = true ∨ c = '\x7d') :
    s.getLast? = some c ↔ t.getLast? = some c := by
  induction h with
  | nil => rfl
  | @cons d s t h ih =>
    by_cases hs : s = []
    · rw [hs, h.eq_nil_iff.1 hs]
    · rw [List.getLast?_cons_of_ne_nil hs, List.getLast?_cons_of_ne_nil fun ht => hs (h.eq_nil_iff.2 ht),
        ih]
  | @path d u v s t _ hu hv hlast h ih =>
    rw [List.getLast?_cons_of_ne_nil (by simp [hu.ne_nil]),
      List.getLast?_cons_of_ne_nil (by simp [hv.ne_nil]), List.getLast?_append, List.getLast?_append]
    by_cases hs : s = []
    · rw [hs, h.eq_nil_iff.1 hs]
      rcases hc with hc | rfl
      · have hnot : ∀ {w : Text}, Filling d w → w.getLast? ≠ some c := fun hw he =>
          hw.not_mem hc (List.mem_of_getLast? he)
        simp [hnot hu, hnot hv]
      · simpa using hlast
    · have ht : t ≠ [] := fun ht => hs (h.eq_nil_iff.2 ht)
      rw [List.getLast?_eq_some_getLast hs, List.getLast?_eq_some_getLast ht] at ih ⊢
      exact ih

theorem exists_of_append {w : Text} (hw : ∀ c ∈ w, isMargin c = false) (h : Alike (w ++ s) t) :
    ∃ t', t = w ++ t' ∧ Alike s t' := by
  induction w generalizing t with
  | nil => exact ⟨t, rfl, h⟩
  | cons c w ih =>
    have hc := hw c (by simp)
    generalize hx : c :: w ++ s = x at h
    cases h with
    | nil => simp at hx
    | cons d h =>
      obtain ⟨rfl, rfl⟩ := List.cons.inj hx
      obtain ⟨t', rfl, h'⟩ := ih (fun d hd => hw d (List.mem_cons_of_mem _ hd)) h
      exact ⟨t', rfl, h'⟩
    | path hmargin =>
      obtain ⟨rfl, -⟩ := List.cons.inj hx
      simp [hc] at hmargin

theorem exists_of_append_cons {c : Char} (hmark : isMark c = true) (h : Alike (s ++ c :: s') t) :
    ∃ u v, t = u ++ c :: v ∧ Alike s u ∧ Alike (c :: s') (c :: v) := by
  generalize hx : s ++ c :: s' = x at h
  induction h generalizing s with
  | nil => simp at hx
  | @cons d x t h ih =>
    cases s with
    | nil =>
      obtain ⟨rfl, rfl⟩ := List.cons.inj hx
      exact ⟨[], t, rfl, .nil, .cons _ h⟩
    | cons e s =>
      obtain ⟨rfl, hx'⟩ := List.cons.inj hx
      obtain ⟨u, v, rfl, hu, hv⟩ := ih hx'
      exact ⟨e :: u, v, rfl, .cons e hu, hv⟩
  | @path d f g x t hd hf hg hlast h ih =>
    cases s with
    | nil =>
      obtain ⟨rfl, rfl⟩ := List.cons.inj hx
      exact ⟨[], g ++ t, rfl, .nil, .path hd hf hg hlast h⟩
    | cons e s =>
      obtain ⟨rfl, hx'⟩ := List.cons.inj hx
      obtain ⟨w, rfl, hw⟩ := exists_of_append_eq_append_cons hx'.symm (hf.not_mem hmark)
      obtain ⟨u, v, rfl, hu, hv⟩ := ih hw.symm
      exact ⟨e :: (g ++ u), v, by simp, .path hd hf hg hlast hu, hv⟩

theorem of_cons {c : Char} (hc : isMargin c = false) (h : Alike (c :: s) (c :: t)) : Alike s t := by
  obtain ⟨t', ht, h'⟩ := exists_of_append (w := [c]) (by simpa using hc) h
  rwa [(List.cons.inj ht).2]

theorem eq_of_blank {b t : Text} (hb : ∀ c ∈ b, isBlank c = true) (h : Alike b t) : t = b := by
  induction h with
  | nil => rfl
  | cons c _ ih => rw [ih fun d hd => hb d (List.mem_cons_of_mem _ hd)]
  | path _ hu _ _ _ _ =>
    obtain ⟨d, hd, hblank⟩ := hu.last
    have := hb d (List.mem_cons_of_mem _ (List.mem_append_left _ (List.mem_of_getLast? hd)))
    simp [hblank] at this

/-! ## Attributes -/

theorem read {name r : Text} {a : Attribute} (hname : ∀ c ∈ name, isMargin c = false) (h : Alike s t)
    (hs : Attribute.read ('*' :: name) s = some (a, r)) :
    ∃ a' r', Attribute.read ('*' :: name) t = some (a', r') ∧ isQuote a.quoted.quote = true ∧
      Alike (a.quoted.quote :: r) (a.quoted.quote :: r') := by
  have hvalid := Attribute.valid_of_read hs
  obtain ⟨b, b', hb, hb', hequals⟩ := hvalid.equals
  have hquote : isMark a.quoted.quote = true := by
    rcases isQuote_iff.1 hvalid.quote with hq | hq <;> rw [hq] <;> decide
  have heq := Attribute.eq_append_of_read hs
  rw [Attribute.print_eq, hequals] at heq
  -- the text is cut before the star, the equals sign and the two quotes
  have h₁ : Alike ([a.blank] ++ '*' :: (name ++ (b ++ '=' :: (b' ++ a.quoted.quote ::
      (a.quoted.value ++ a.quoted.quote :: r))))) t := by
    rw [heq] at h
    simpa using h
  obtain ⟨u₁, t₁, rfl, hu₁, ht₁⟩ := exists_of_append_cons (by decide) h₁
  obtain rfl := eq_of_blank (by simpa using hvalid.blank) hu₁
  obtain ⟨t₂, rfl, ht₂⟩ := exists_of_append hname (of_cons (by decide) ht₁)
  obtain ⟨u₂, t₃, rfl, hu₂, ht₃⟩ := exists_of_append_cons (by decide) ht₂
  obtain rfl := eq_of_blank hb hu₂
  obtain ⟨u₃, t₄, rfl, hu₃, ht₄⟩ := exists_of_append_cons hquote (of_cons (by decide) ht₃)
  obtain rfl := eq_of_blank hb' hu₃
  obtain ⟨u₄, r', ht₅, hu₄, hr⟩ := exists_of_append_cons hquote
    (show Alike ((a.quoted.quote :: a.quoted.value) ++ a.quoted.quote :: r) (a.quoted.quote :: t₄) by
      simpa using ht₄)
  obtain ⟨value, rfl⟩ : ∃ value, u₄ = a.quoted.quote :: value := by
    have hhead := hu₄.head?_eq
    cases u₄ with
    | nil => simp at hhead
    | cons c value => exact ⟨value, by rw [show a.quoted.quote = c by simpa using hhead]⟩
  have hvalue : a.quoted.quote ∉ value := by
    have hcount := hu₄.count_eq hquote
    rw [List.count_cons_self, List.count_cons_self] at hcount
    have hzero := List.count_eq_zero_of_not_mem hvalid.value
    exact List.count_eq_zero.1 (by omega)
  have hvalid' : Attribute.Valid ⟨a.blank, a.equals, ⟨a.quoted.quote, value⟩⟩ :=
    ⟨hvalid.blank, ⟨u₂, u₃, hb, hb', hequals⟩, hvalid.quote, hvalue⟩
  refine ⟨⟨a.blank, a.equals, ⟨a.quoted.quote, value⟩⟩, r', ?_, hvalid.quote, hr⟩
  have hread := hvalid'.read_print ('*' :: name) r'
  rw [Attribute.print_eq, hequals] at hread
  rw [List.cons_append] at ht₅
  rw [(List.cons.inj ht₅).2]
  simpa [hequals] using hread

/-- The first attribute of one text stands where that of the other does. -/
theorem find? {name front back : Text} {a : Attribute} (hname : ∀ c ∈ name, isMargin c = false)
    (h : Alike s t) (hs : (Attribute.pattern ('*' :: name)).find? s = some (front, a, back)) :
    ∃ front' a' back', (Attribute.pattern ('*' :: name)).find? t = some (front', a', back') ∧
      Alike front front' ∧ ∃ q, isQuote q = true ∧ Alike (q :: back) (q :: back') := by
  induction h generalizing front with
  | nil => simp [Pattern.find?] at hs
  | @cons c s t h ih =>
    unfold Pattern.find? at hs
    split at hs
    · next b r hread =>
      simp only [Option.some.injEq, Prod.mk.injEq] at hs
      obtain ⟨rfl, rfl, rfl⟩ := hs
      obtain ⟨a', r', hread', hquote, hr⟩ := read hname (h.cons c) hread
      have hpattern : (Attribute.pattern ('*' :: name)).read (c :: t) = some (a', r') := hread'
      exact ⟨[], a', r', by rw [Pattern.find?, hpattern], .nil, _, hquote, hr⟩
    · next hread =>
      simp only [Option.map_eq_some_iff, Prod.exists, Prod.mk.injEq] at hs
      obtain ⟨front, b, r, hr, rfl, rfl, rfl⟩ := hs
      obtain ⟨front', a', back', hfind, hfront, hback⟩ := ih hr
      have hread' : (Attribute.pattern ('*' :: name)).read (c :: t) = none := by
        by_contra hsome
        obtain ⟨⟨b', r'⟩, hsome⟩ := Option.ne_none_iff_exists'.1 hsome
        obtain ⟨_, _, hread'', -⟩ := read hname (h.symm.cons c) hsome
        exact absurd (hread''.symm.trans hread) (by simp)
      refine ⟨c :: front', a', back', ?_, hfront.cons c, hback⟩
      rw [Pattern.find?, hread', hfind]
      rfl
  | @path c u v s t hc hu hv hlast h ih =>
    have hstar : ∀ {w : Text}, Filling c w → '*' ∉ c :: w := fun hw hmem => by
      rcases List.mem_cons.1 hmem with rfl | hmem
      · exact absurd hc (by decide)
      · exact hw.not_mem (by decide) hmem
    have hend : ∀ {w : Text}, Filling c w → ∃ d, (c :: w).getLast? = some d ∧ isBlank d = false :=
      fun hw => by
        obtain ⟨d, hd, hblank⟩ := hw.last
        exact ⟨d, by rw [List.getLast?_cons_of_ne_nil hw.ne_nil, hd], hblank⟩
    rw [← List.cons_append, Attribute.find?_append (hstar hu) (hend hu)] at hs
    simp only [Option.map_eq_some_iff, Prod.exists, Prod.mk.injEq] at hs
    obtain ⟨front, b, r, hr, rfl, rfl, rfl⟩ := hs
    obtain ⟨front', a', back', hfind, hfront, hback⟩ := ih hr
    refine ⟨c :: (v ++ front'), a', back', ?_, ?_, hback⟩
    · rw [← List.cons_append, Attribute.find?_append (hstar hv) (hend hv), hfind]
      rfl
    · exact .path hc hu hv hlast hfront

end Alike
end Text
end HtmlTemplate
