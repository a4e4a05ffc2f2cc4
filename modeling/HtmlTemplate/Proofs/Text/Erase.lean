import HtmlTemplate.Proofs.Text.Basic
import HtmlTemplate.Proofs.Text.Pattern

/-!
# Erasing ranges of a text

Parts of a text are named by their byte ranges. Where the ranges of the parts of a text lie within
these parts, a text may be erased part by part (`Text.erase_append_of_within`).
-/

namespace HtmlTemplate

namespace Text

/-- Whether an offset lies in one of the ranges. -/
def covers (ranges : List (Nat × Nat)) (n : Nat) : Bool :=
  ranges.any fun range => range.1 ≤ n && n < range.2

/-- A text that begins at byte `start` without the characters whose first bytes lie in the ranges. -/
def erase (ranges : List (Nat × Nat)) : (start : Nat) → Text → Text
  | _, [] => []
  | start, c :: t =>
    if covers ranges start then erase ranges (start + c.utf8Size) t
    else c :: erase ranges (start + c.utf8Size) t

def Within (ranges : List (Nat × Nat)) (start stop : Nat) : Prop :=
  ∀ range ∈ ranges, start ≤ range.1 ∧ range.2 ≤ stop

variable {ranges ranges' : List (Nat × Nat)} {start stop : Nat}

theorem Within.mono {start' stop' : Nat} (h : Within ranges start stop) (hstart : start' ≤ start)
    (hstop : stop ≤ stop') : Within ranges start' stop' := fun range hrange =>
  ⟨hstart.trans (h range hrange).1, (h range hrange).2.trans hstop⟩

theorem erase_append (ranges : List (Nat × Nat)) (start : Nat) (s t : Text) :
    erase ranges start (s ++ t) = erase ranges start s ++ erase ranges (start + byteLength s) t := by
  induction s generalizing start with
  | nil => rfl
  | cons c s ih =>
    rw [List.cons_append, erase, erase, ih, byteLength_cons, Nat.add_assoc]
    split <;> rfl

theorem erase_congr {t : Text}
    (h : ∀ n, start ≤ n → n < start + byteLength t → covers ranges n = covers ranges' n) :
    erase ranges start t = erase ranges' start t := by
  induction t generalizing start with
  | nil => rfl
  | cons c t ih =>
    have hpos := c.utf8Size_pos
    rw [byteLength_cons] at h
    rw [erase, erase, h start le_rfl (by omega), ih fun n hn hlt => h n (by omega) (by omega)]

theorem covers_append (ranges ranges' : List (Nat × Nat)) (n : Nat) :
    covers (ranges ++ ranges') n = (covers ranges n || covers ranges' n) := List.any_append

theorem Within.not_covers (h : Within ranges start stop) {n : Nat} (hn : n < start ∨ stop ≤ n) :
    covers ranges n = false := by
  rw [covers, List.any_eq_false]
  intro range hrange
  have := h range hrange
  simp only [Bool.and_eq_true, decide_eq_true_eq]
  omega

theorem erase_nil (start : Nat) (t : Text) : erase [] start t = t := by
  induction t generalizing start with
  | nil => rfl
  | cons c t ih =>
    rw [erase, if_neg (by simp [covers]), ih]

theorem erase_of_mem {t : Text} (h : (start, stop) ∈ ranges) (hstop : start + byteLength t ≤ stop) :
    erase ranges start t = [] := by
  have key : ∀ {t : Text} {n : Nat}, start ≤ n → n + byteLength t ≤ stop → erase ranges n t = [] := by
    intro t
    induction t with
    | nil => intros; rfl
    | cons c t ih =>
      intro n hn hle
      have hpos := c.utf8Size_pos
      rw [byteLength_cons] at hle
      have hcovers : covers ranges n = true :=
        List.any_eq_true.2 ⟨(start, stop), h, by simp; omega⟩
      rw [erase, if_pos hcovers, ih (by omega) (by omega)]
  exact key le_rfl hstop

/-- Parts of a text are erased one by one. -/
theorem erase_append_of_within {s t : Text} (h : Within ranges start (start + byteLength s))
    (h' : Within ranges' (start + byteLength s) stop) :
    erase (ranges ++ ranges') start (s ++ t) =
      erase ranges start s ++ erase ranges' (start + byteLength s) t := by
  rw [erase_append]
  congr 1
  · refine erase_congr fun n _ hlt => ?_
    rw [covers_append, h'.not_covers (.inl hlt), Bool.or_false]
  · refine erase_congr fun n hle _ => ?_
    rw [covers_append, h.not_covers (.inr hle), Bool.false_or]

end Text

namespace Pattern

open Text (byteLength erase Within)

variable {α : Type} (p : Pattern α)

/-- The lexemes of pieces that begin at byte `start`, with their byte ranges. -/
def occurrences (start : Nat) : List (Piece α) → List (α × (Nat × Nat))
  | [] => []
  | .char c :: ps => occurrences (start + c.utf8Size) ps
  | .lexeme a :: ps =>
    (a, (start, start + byteLength (p.print a))) :: occurrences (start + byteLength (p.print a)) ps

theorem occurrences_map_char (start : Nat) (s : Text) (ps : List (Piece α)) :
    p.occurrences start (s.map .char ++ ps) = p.occurrences (start + byteLength s) ps := by
  induction s generalizing start with
  | nil => rfl
  | cons c s ih =>
    rw [List.map_cons, List.cons_append, occurrences, ih, Text.byteLength_cons, Nat.add_assoc]

theorem within_occurrences (start : Nat) (ps : List (Piece α)) :
    Within ((p.occurrences start ps).map Prod.snd) start
      (start + byteLength (ps.flatMap (Piece.print p.print))) := by
  induction ps generalizing start with
  | nil => simp [occurrences, Within]
  | cons piece ps ih =>
    rw [List.flatMap_cons, Text.byteLength_append]
    cases piece with
    | char c =>
      rw [occurrences]
      exact (ih _).mono (Nat.le_add_right _ _) (by simp [Piece.print, Text.byteLength_cons]; omega)
    | lexeme a =>
      rw [occurrences, List.map_cons]
      intro range hrange
      rcases List.mem_cons.1 hrange with rfl | hmem
      · simp only [Piece.print]
        omega
      · exact (ih _).mono (Nat.le_add_right _ _) (by simp [Piece.print]; omega) range hmem

theorem erase_occurrences (start : Nat) (ps : List (Piece α)) :
    erase ((p.occurrences start ps).map Prod.snd) start (ps.flatMap (Piece.print p.print)) =
      ps.flatMap (Piece.print fun _ => []) := by
  induction ps generalizing start with
  | nil => rfl
  | cons piece ps ih =>
    rw [List.flatMap_cons, List.flatMap_cons]
    cases piece with
    | char c =>
      have hnone : Within [] start (start + byteLength [c]) := by simp [Within]
      have := Text.erase_append_of_within (t := ps.flatMap (Piece.print p.print)) hnone (p.within_occurrences _ ps)
      rw [List.nil_append, Text.erase_nil] at this
      have hlength : byteLength [c] = c.utf8Size := rfl
      rw [hlength, ih] at this
      exact this
    | lexeme a =>
      have hone : Within [(start, start + byteLength (p.print a))] start (start + byteLength (p.print a)) := by
        simp [Within]
      have := Text.erase_append_of_within (t := ps.flatMap (Piece.print p.print)) hone (p.within_occurrences _ ps)
      rw [Text.erase_of_mem (List.mem_singleton_self _) le_rfl, ih] at this
      exact this

theorem le_of_mem_occurrences {start : Nat} {ps : List (Piece α)} {o : α × (Nat × Nat)}
    (h : o ∈ p.occurrences start ps) : start ≤ o.2.1 :=
  (p.within_occurrences start ps o.2 (List.mem_map_of_mem h)).1

theorem pieces_append_of_occurrences {start : Nat} {s t : Text}
    (h : ∀ o ∈ p.occurrences start (p.pieces (s ++ t)), start + byteLength s ≤ o.2.1) :
    p.pieces (s ++ t) = s.map .char ++ p.pieces t := by
  induction s generalizing start with
  | nil => rfl
  | cons c s ih =>
    have hpos := c.utf8Size_pos
    rw [Text.byteLength_cons] at h
    cases hread : p.read (c :: (s ++ t)) with
    | some found =>
      obtain ⟨a, rest⟩ := found
      rw [List.cons_append, p.pieces_of_read hread, occurrences] at h
      have := h _ List.mem_cons_self
      dsimp only at this
      omega
    | none =>
      rw [List.cons_append, p.pieces_cons_of_read_none hread] at h ⊢
      have hrest : ∀ o ∈ p.occurrences (start + c.utf8Size) (p.pieces (s ++ t)),
          start + c.utf8Size + byteLength s ≤ o.2.1 := fun o ho => by
        have := h o ho
        omega
      rw [ih hrest]
      rfl

/-! ## The first lexeme -/

variable {p}

theorem pieces_of_find?_eq_none {t : Text} (h : p.find? t = none) : p.pieces t = t.map .char := by
  have hpieces := (find?_eq_none_iff.1 h).pieces_append
  rwa [List.append_nil, p.pieces_nil, List.append_nil] at hpieces

theorem silent_of_find? {t front back : Text} {a : α} (h : p.find? t = some (front, a, back)) :
    p.Silent front (p.print a ++ back) := by
  induction t generalizing front with
  | nil => simp [find?] at h
  | cons c t ih =>
    have happ := p.eq_append_of_find? h
    unfold find? at h
    split at h
    · simp only [Option.some.injEq, Prod.mk.injEq] at h
      rw [← h.1]
      exact silent_nil _
    · next hread =>
      simp only [Option.map_eq_some_iff, Prod.exists, Prod.mk.injEq] at h
      obtain ⟨f, b, r, hr, rfl, rfl, rfl⟩ := h
      rw [happ, List.append_assoc] at hread
      exact silent_cons.2 ⟨hread, ih hr⟩

theorem pieces_of_find? {t front back : Text} {a : α} (h : p.find? t = some (front, a, back)) :
    p.pieces t = front.map .char ++ .lexeme a :: p.pieces back := by
  rw [p.eq_append_of_find? h, List.append_assoc, (silent_of_find? h).pieces_append, p.pieces_of_read
    (p.exists_read_of_find? h)]

theorem find?_eq_none_of_pieces {t : Text} (h : ∀ a, .lexeme a ∉ p.pieces t) : p.find? t = none := by
  by_contra hne
  obtain ⟨⟨front, a, back⟩, hfind⟩ := Option.ne_none_iff_exists'.1 hne
  exact h a (by simp [pieces_of_find? hfind])

theorem find?_of_pieces {t front : Text} {a : α} {ps : List (Piece α)}
    (h : p.pieces t = front.map .char ++ .lexeme a :: ps) :
    p.find? t = some (front, a, ps.flatMap (Piece.print p.print)) := by
  cases hfind : p.find? t with
  | none =>
    rw [pieces_of_find?_eq_none hfind] at h
    have hmem : .lexeme a ∈ t.map Piece.char := by simp [h]
    simp at hmem
  | some found =>
    obtain ⟨front', a', back⟩ := found
    have hpieces := pieces_of_find? hfind
    rw [h] at hpieces
    obtain ⟨w, hw, hrest⟩ := Text.exists_of_append_eq_append_cons hpieces (by simp)
    cases w with
    | nil =>
      obtain ⟨ha, rfl⟩ := List.cons.inj hrest
      rw [List.append_nil] at hw
      have hfront := congrArg (List.flatMap (Piece.print p.print)) hw
      rw [Piece.flatMap_print_map_char, Piece.flatMap_print_map_char] at hfront
      rw [hfront, Piece.lexeme.inj ha, p.print_pieces]
    | cons piece w =>
      have hmem : piece ∈ front'.map Piece.char := by simp [hw]
      rw [← (List.cons.inj hrest).1] at hmem
      simp at hmem

theorem find?_eq_some_iff {t front back : Text} {a : α} :
    p.find? t = some (front, a, back) ↔
      t = front ++ (p.print a ++ back) ∧ p.read (p.print a ++ back) = some (a, back) ∧
        p.Silent front (p.print a ++ back) := by
  constructor
  · intro h
    exact ⟨by rw [p.eq_append_of_find? h, List.append_assoc], p.exists_read_of_find? h, silent_of_find? h⟩
  · rintro ⟨rfl, hread, hsilent⟩
    have hpieces := hsilent.pieces_append
    rw [p.pieces_of_read hread] at hpieces
    rw [find?_of_pieces hpieces, p.print_pieces]

end Pattern
end HtmlTemplate
