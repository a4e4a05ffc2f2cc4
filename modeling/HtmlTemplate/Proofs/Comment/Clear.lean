import HtmlTemplate.Proofs.Comment.Digits
import Mathlib

/-!
# Texts in which no comment can come about

A `<` outside all markers must not grow into a comment opening when text next to it goes or changes.
It is safe when a few characters right behind it (`Window`) differ from the rest of an opening and keep
their places: directives, placeholders and elements go or change only from their first character on,
and none of them begins inside the window. A text whose every `<` is safe, or begins a marker, is
`Clear`. Clear texts can be put together, cut where a directive or a tag begins or ends, and have
their references exchanged.
-/

namespace HtmlTemplate.Comment

open Text (fill)

/-! ## Settled sources -/

/-- Whether the first character that is no blank neither begins markup nor a directive. -/
def resumes : Text → Bool
  | [] => false
  | c :: t => if Text.isBlank c then resumes t else c != '<' && c != '*'

/-- Whether a text differs from `mark` in a way that no later step undoes: at a blank that no directive
follows, or at a character with which nothing begins that may go. -/
def departs : (mark : Text) → Text → Bool
  | [], _ => false
  | _ :: _, [] => false
  | m :: mark, c :: t =>
    if c = m then departs mark t
    else if Text.isBlank c then resumes t
    else c != '<' && c != '\x7b'

def openingTail : Text := ['!', '-', '-']

/-- Whether every `<` between comments is followed by something else than the rest of an opening. -/
def settledPieces : List (Piece Comment) → Bool
  | [] => true
  | .char c :: ps => (c != '<' || departs openingTail (fill print ps)) && settledPieces ps
  | .lexeme _ :: ps => settledPieces ps

/-- Outside the comments of a source, no `<` can become a comment opening while the source is worked
on. -/
def Settled (t : Text) : Prop := settledPieces (pattern.pieces t) = true

instance (t : Text) : Decidable (Settled t) := inferInstanceAs (Decidable (_ = _))

/-! ## Windows -/

/-- Characters behind a `<` among which nothing begins that may go: `v`, and a last character `d`. -/
structure Window (v : Text) (d : Char) : Prop where
  inner : ∀ c ∈ v, c ≠ '<' ∧ c ≠ '>' ∧ c ≠ '\x7b' ∧ c ≠ '*'
  last_ne : d ≠ '<'
  last_solid : Text.isBlank d = false
  star : (∃ c ∈ v, Text.isBlank c = true) → d ≠ '*'

theorem eq_append_of_resumes {t : Text} (h : resumes t = true) :
    ∃ (b : Text) (d : Char) (rest : Text), t = b ++ d :: rest ∧ (∀ c ∈ b, Text.isBlank c = true) ∧
      Text.isBlank d = false ∧ d ≠ '<' ∧ d ≠ '*' := by
  induction t with
  | nil => simp [resumes] at h
  | cons c t ih =>
    rw [resumes] at h
    split at h
    · next hc =>
      obtain ⟨b, d, rest, rfl, hb, hd⟩ := ih h
      exact ⟨c :: b, d, rest, rfl, by simpa [hc] using hb, hd⟩
    · next hc =>
      simp only [Bool.and_eq_true, bne_iff_ne] at h
      exact ⟨[], c, t, rfl, by simp, by simpa using hc, h.1, h.2⟩

theorem resumes_append {b : Text} {d : Char} (hb : ∀ c ∈ b, Text.isBlank c = true)
    (hd : Text.isBlank d = false) (hlt : d ≠ '<') (hstar : d ≠ '*') :
    resumes (b ++ [d]) = true := by
  induction b with
  | nil => simp [resumes, hd, hlt, hstar]
  | cons c b ih =>
    rw [List.cons_append, resumes, if_pos (hb c (by simp))]
    exact ih fun e he => hb e (List.mem_cons_of_mem _ he)

theorem ne_of_isBlank {c : Char} (h : Text.isBlank c = true) :
    c ≠ '<' ∧ c ≠ '>' ∧ c ≠ '\x7b' ∧ c ≠ '*' := by
  refine ⟨?_, ?_, ?_, ?_⟩ <;> rintro rfl <;> revert h <;> decide

/-- A text that departs from the rest of an opening does so within a window. -/
theorem exists_window_of_departs {mark t : Text} (hmark : ∀ m ∈ mark, m ∈ openingTail)
    (h : departs mark t = true) :
    ∃ v d, Window v d ∧ v ++ [d] <+: t ∧ departs mark (v ++ [d]) = true := by
  induction mark generalizing t with
  | nil => simp [departs] at h
  | cons m mark ih =>
    cases t with
    | nil => simp [departs] at h
    | cons c t =>
      rw [departs] at h
      split at h
      · next hc =>
        obtain ⟨v, d, hw, hpre, hdep⟩ := ih (fun m hm => hmark m (List.mem_cons_of_mem _ hm)) h
        have hmem := hmark m (by simp)
        rw [← hc] at hmem
        have hne : (c ≠ '<' ∧ c ≠ '>' ∧ c ≠ '\x7b' ∧ c ≠ '*') ∧ Text.isBlank c = false := by
          simp only [openingTail, List.mem_cons, List.not_mem_nil, or_false] at hmem
          rcases hmem with rfl | rfl | rfl <;> decide
        refine ⟨c :: v, d, ⟨by simpa using ⟨hne.1, hw.inner⟩, hw.last_ne, hw.last_solid, ?_⟩,
          by simpa using hpre, by simpa [departs, hc] using hdep⟩
        rintro ⟨e, he, hblank⟩
        rcases List.mem_cons.1 he with rfl | he
        · simp [hne.2] at hblank
        · exact hw.star ⟨e, he, hblank⟩
      · next hc =>
        split at h
        · next hblank =>
          obtain ⟨b, d, rest, rfl, hb, hd, hlt, hstar⟩ := eq_append_of_resumes h
          refine ⟨c :: b, d, ⟨?_, hlt, hd, fun _ => hstar⟩, ⟨rest, by simp⟩, ?_⟩
          · intro e he
            rcases List.mem_cons.1 he with rfl | he
            · exact ne_of_isBlank hblank
            · exact ne_of_isBlank (hb e he)
          · rw [List.cons_append, departs, if_neg hc, if_pos hblank]
            exact resumes_append hb hd hlt hstar
        · next hblank =>
          simp only [Bool.and_eq_true, bne_iff_ne] at h
          refine ⟨[], c, ⟨by simp, h.1, by simpa using hblank, by simp⟩, by simp, ?_⟩
          simp [departs, hc, hblank, h]

/-- A window survives a cut in front of a tag or a directive, or behind the end of a tag. -/
def Seam (s t : Text) : Prop :=
  s.getLast? = some '>' ∨ t.head? = some '<' ∨
    ∃ b u, Text.isBlank b = true ∧ t = b :: '*' :: u

theorem Window.prefix_of_append {v s t : Text} {d : Char} (hw : Window v d) (hseam : Seam s t)
    (h : v ++ [d] <+: s ++ t) : v ++ [d] <+: s := by
  rcases List.prefix_or_prefix_of_prefix h (List.prefix_append s t) with hs | ⟨x, hx⟩
  · exact hs
  · cases x using List.reverseRecOn with
    | nil => rw [← hx, List.append_nil]
    | append_singleton x e =>
      rw [← List.append_assoc] at hx
      obtain ⟨hv, he⟩ := List.append_inj' hx rfl
      obtain rfl : e = d := by simpa using he
      have ht : x ++ [e] <+: t := by
        rw [← hx, List.append_assoc, List.prefix_append_right_inj] at h
        exact h
      exfalso
      rcases hseam with hend | hhead | ⟨b, u, hb, rfl⟩
      · have hmem : '>' ∈ v := hv ▸ List.mem_append_left x (List.mem_of_getLast? hend)
        exact (hw.inner _ hmem).2.1 rfl
      · cases x with
        | nil =>
          obtain ⟨y, rfl⟩ := ht
          simp only [List.nil_append, List.singleton_append, List.head?_cons, Option.some.injEq] at hhead
          exact hw.last_ne hhead
        | cons c x =>
          obtain ⟨y, rfl⟩ := ht
          simp only [List.cons_append, List.head?_cons, Option.some.injEq] at hhead
          exact (hw.inner c (by simp [← hv])).1 hhead
      · cases x with
        | nil =>
          obtain ⟨rfl, -⟩ := List.cons_prefix_cons.1 ht
          simp [hw.last_solid] at hb
        | cons c x =>
          rw [List.cons_append, List.cons_prefix_cons] at ht
          obtain ⟨rfl, ht⟩ := ht
          have hblank : ∃ c ∈ v, Text.isBlank c = true := ⟨c, by simp [← hv], hb⟩
          cases x with
          | nil =>
            obtain ⟨rfl, -⟩ := List.cons_prefix_cons.1 ht
            exact hw.star hblank rfl
          | cons c' x =>
            obtain ⟨rfl, -⟩ := List.cons_prefix_cons.1 ht
            exact (hw.inner '*' (by simp [← hv])).2.2.2 rfl

/-- What may stand in a hole: something that begins like what is taken out, with `<`, `{` or `*`, and
that still begins so unless it began with `<`. -/
def Keeps (s t : Text) : Prop :=
  ∃ k, s.head? = some k ∧ (k = '<' ∨ (k = '\x7b' ∨ k = '*') ∧ t.head? = some k)

theorem Window.prefix_fill {α : Type} {f g : α → Text} {ps : List (Piece α)} {v : Text} {d : Char}
    (hw : Window v d) (hkeep : ∀ a, .lexeme a ∈ ps → Keeps (f a) (g a))
    (h : v ++ [d] <+: fill f ps) : v ++ [d] <+: fill g ps := by
  obtain ⟨hinner, hlast, -, -⟩ := hw
  induction v generalizing ps with
  | nil =>
    cases ps with
    | nil => simp at h
    | cons piece ps =>
      cases piece with
      | char c => simpa using h
      | lexeme a =>
        obtain ⟨k, hk, hkind⟩ := hkeep a (by simp)
        obtain ⟨s, hs⟩ := List.head?_eq_some_iff.1 hk
        rw [Text.fill_hole, hs, List.cons_append, List.nil_append, List.cons_prefix_cons] at h
        obtain ⟨rfl, -⟩ := h
        rcases hkind with hlt | ⟨-, hg⟩
        · exact absurd hlt hlast
        · obtain ⟨s', hs'⟩ := List.head?_eq_some_iff.1 hg
          rw [Text.fill_hole, hs', List.cons_append, List.nil_append]
          simp
  | cons c v ih =>
    cases ps with
    | nil => simp at h
    | cons piece ps =>
      cases piece with
      | char e =>
        rw [Text.fill_char, List.cons_append, List.cons_prefix_cons] at h ⊢
        exact ⟨h.1, ih (fun a ha => hkeep a (List.mem_cons_of_mem _ ha)) h.2
          fun e he => hinner e (List.mem_cons_of_mem _ he)⟩
      | lexeme a =>
        obtain ⟨k, hk, hkind⟩ := hkeep a (by simp)
        obtain ⟨s, hs⟩ := List.head?_eq_some_iff.1 hk
        rw [Text.fill_hole, hs, List.cons_append, List.cons_append, List.cons_prefix_cons] at h
        obtain ⟨rfl, -⟩ := h
        have hne := hinner c (by simp)
        rcases hkind with hlt | ⟨hbrace | hstar, -⟩
        · exact absurd hlt hne.1
        · exact absurd hbrace hne.2.2.1
        · exact absurd hstar hne.2.2.2

/-! ## Clear texts -/

/-- Behind `<`, either a marker goes on or no comment can begin. -/
def Safe (t : Text) : Prop :=
  ∃ v d, Window v d ∧ v ++ [d] <+: t ∧
    (departs openingTail (v ++ [d]) = true ∨ ∃ c : Comment, c.IsMarker ∧ c.print = '<' :: (v ++ [d]))

/-- Every `<` of a text begins a marker or is followed by a window that is no part of an opening. -/
def Clear : Text → Prop
  | [] => True
  | c :: t => (c = '<' → Safe t) ∧ Clear t

theorem Safe.append {s : Text} (h : Safe s) (t : Text) : Safe (s ++ t) := by
  obtain ⟨v, d, hw, hpre, hkind⟩ := h
  exact ⟨v, d, hw, hpre.trans (List.prefix_append s t), hkind⟩

theorem Safe.of_append {s t : Text} (hseam : Seam s t) (h : Safe (s ++ t)) : Safe s := by
  obtain ⟨v, d, hw, hpre, hkind⟩ := h
  exact ⟨v, d, hw, hw.prefix_of_append hseam hpre, hkind⟩

theorem Safe.fill {α : Type} {f g : α → Text} {ps : List (Piece α)}
    (hkeep : ∀ a, .lexeme a ∈ ps → Keeps (f a) (g a)) (h : Safe (fill f ps)) : Safe (fill g ps) := by
  obtain ⟨v, d, hw, hpre, hkind⟩ := h
  exact ⟨v, d, hw, hw.prefix_fill hkeep hpre, hkind⟩

theorem safe_of_departs {t : Text} (h : departs openingTail t = true) : Safe t := by
  obtain ⟨v, d, hw, hpre, hdep⟩ := exists_window_of_departs (fun m hm => hm) h
  exact ⟨v, d, hw, hpre, .inl hdep⟩

theorem clear_of_not_mem {t : Text} (h : '<' ∉ t) : Clear t := by
  induction t with
  | nil => trivial
  | cons c t ih =>
    simp only [List.mem_cons, not_or] at h
    exact ⟨fun hc => absurd hc.symm h.1, ih h.2⟩

theorem Clear.append {s t : Text} (hs : Clear s) (ht : Clear t) : Clear (s ++ t) := by
  induction s with
  | nil => exact ht
  | cons c s ih => exact ⟨fun hc => (hs.1 hc).append t, ih hs.2⟩

theorem Clear.of_append_right {s t : Text} (h : Clear (s ++ t)) : Clear t := by
  induction s with
  | nil => exact h
  | cons c s ih => exact ih h.2

theorem Seam.tail {c : Char} {s t : Text} (h : Seam (c :: s) t) (hc : c = '<') : Seam s t := by
  rcases h with hend | hrest
  · cases s with
    | nil => simp [hc] at hend
    | cons e s => exact .inl (by simpa [List.getLast?_cons] using hend)
  · exact .inr hrest

theorem Clear.of_append_left {s t : Text} (hseam : Seam s t) (h : Clear (s ++ t)) : Clear s := by
  induction s with
  | nil => trivial
  | cons c s ih =>
    refine ⟨fun hc => (h.1 hc).of_append (hseam.tail hc), ?_⟩
    rcases hseam with hend | hrest
    · cases s with
      | nil => trivial
      | cons e s => exact ih (.inl (by simpa [List.getLast?_cons] using hend)) h.2
    · exact ih (.inr hrest) h.2

theorem Clear.fill {α : Type} {f g : α → Text} {ps : List (Piece α)}
    (hkeep : ∀ a, .lexeme a ∈ ps → Keeps (f a) (g a)) (hclear : ∀ a, .lexeme a ∈ ps → Clear (g a))
    (h : Clear (fill f ps)) : Clear (fill g ps) := by
  induction ps with
  | nil => trivial
  | cons piece ps ih =>
    have ih := ih (fun a ha => hkeep a (List.mem_cons_of_mem _ ha))
      (fun a ha => hclear a (List.mem_cons_of_mem _ ha))
    cases piece with
    | char c =>
      exact ⟨fun hc => (h.1 hc).fill fun a ha => hkeep a (List.mem_cons_of_mem _ ha), ih h.2⟩
    | lexeme a => exact (hclear a (by simp)).append (ih h.of_append_right)

/-! ## Guarded sources -/

/-- What follows `<` in a marker is a window. -/
theorem IsMarker.exists_window {c : Comment} (h : c.IsMarker) :
    ∃ v, Window v '>' ∧ c.print = '<' :: (v ++ ['>']) := by
  refine ⟨openingTail ++ c.body ++ ['-', '-'], ⟨?_, by decide, by decide, fun _ => by decide⟩, ?_⟩
  · have hopen : ∀ e ∈ openingTail, e ≠ '<' ∧ e ≠ '>' ∧ e ≠ '\x7b' ∧ e ≠ '*' := by
      simp [openingTail]
    have hclose : ∀ e ∈ ['-', '-'], e ≠ '<' ∧ e ≠ '>' ∧ e ≠ '\x7b' ∧ e ≠ '*' := by simp
    intro e he
    rcases List.mem_append.1 he with he | he
    · rcases List.mem_append.1 he with he | he
      · exact hopen e he
      · exact h.not_mem_body e he
    · exact hclose e he
  · simp [print, opening, ending, openingTail]

theorem IsMarker.clear_print {c : Comment} (h : c.IsMarker) : Clear c.print := by
  obtain ⟨v, hw, hprint⟩ := h.exists_window
  rw [hprint]
  refine ⟨fun _ => ⟨v, '>', hw, List.prefix_refl _, .inr ⟨c, h, hprint⟩⟩, clear_of_not_mem ?_⟩
  simpa using fun he => (hw.inner '<' he).1 rfl

theorem isMarker_marker (n : Nat) : IsMarker ⟨label ++ Text.numeral n⟩ := by
  refine ⟨Text.numeral n, ?_, fun d hd => isDigit_of_mem_numeral hd, rfl⟩
  exact Nat.toDigits_ne_nil

theorem clear_marker (n : Nat) : Clear (marker n) := by
  have h := (isMarker_marker n).clear_print
  rwa [(isMarker_marker n).print_eq, digits_of_body rfl] at h

theorem Settled.clear_guard {t : Text} (h : Settled t) (table : Table) :
    Clear (table.guard t).1 := by
  have key : ∀ (ps : List (Piece Comment)) (n : Nat), settledPieces ps = true →
      Clear (fill (fun a => marker a.2) (numbered n ps)) := by
    intro ps
    induction ps with
    | nil => exact fun _ _ => trivial
    | cons piece ps ih =>
      intro n hps
      cases piece with
      | char c =>
        rw [settledPieces, Bool.and_eq_true] at hps
        refine ⟨fun hc => ?_, ih n hps.2⟩
        have hdep : departs openingTail (fill print ps) = true := by simpa [hc] using hps.1
        rw [← fill_numbered print n] at hdep
        exact (safe_of_departs hdep).fill fun a _ => ⟨'<', rfl, .inl rfl⟩
      | lexeme a => exact (clear_marker n).append (ih (n + 1) hps)
  rw [Table.guard, guardPieces_fst]
  exact key _ _ h

end HtmlTemplate.Comment
