import HtmlTemplate.Text.Basic

/-!
# Patterns

A pattern reads one lexeme at the front of a text. `Pattern.pieces` cuts a whole text into the lexemes
found by leftmost scanning and the single characters between them, and `Pattern.replace` puts
other texts in the place of the lexemes. Nothing is lost: the pieces print back to the text
(`Pattern.print_pieces`).
-/

namespace HtmlTemplate

/-- A way to read one lexeme at the front of a text. A lexeme prints as the characters it was read
from, and there is at least one of them. -/
structure Pattern (α : Type) where
  /-- The lexeme at the front of a text, with the text after it. -/
  read : Text → Option (α × Text)
  /-- The characters of a lexeme. -/
  print : α → Text
  eq_append : ∀ {t a rest}, read t = some (a, rest) → t = print a ++ rest
  print_ne_nil : ∀ {t a rest}, read t = some (a, rest) → print a ≠ []

/-- A piece of a scanned text: a lexeme, or a character that belongs to none. -/
inductive Piece (α : Type) where
  | char (c : Char)
  | lexeme (a : α)
  deriving Repr, DecidableEq

/-- The characters that a piece becomes when lexemes are written by `f`. -/
def Piece.print {α : Type} (f : α → Text) : Piece α → Text
  | char c => [c]
  | lexeme a => f a

def Piece.lexeme? {α : Type} : Piece α → Option α
  | char _ => none
  | lexeme a => some a

namespace Pattern

variable {α : Type} (p : Pattern α)

theorem length_lt {t rest : Text} {a : α} (h : p.read t = some (a, rest)) :
    rest.length < t.length := by
  rw [p.eq_append h, List.length_append]
  have := List.length_pos_iff.2 (p.print_ne_nil h)
  omega

/-- Cuts a text into lexemes, found from the left and never overlapping, and the characters between
them. -/
def pieces (t : Text) : List (Piece α) :=
  match _h : p.read t with
  | some (a, rest) => .lexeme a :: pieces rest
  | none =>
    match t with
    | [] => []
    | c :: t => .char c :: pieces t
termination_by t.length
decreasing_by
  · exact p.length_lt _h
  · exact Nat.lt_succ_self _

/-- The lexemes of a text in order. -/
def lexemes (t : Text) : List α := (p.pieces t).filterMap Piece.lexeme?

/-- The leftmost lexeme of a text, with what precedes and what follows it. -/
def find? : Text → Option (Text × α × Text)
  | [] => none
  | c :: t =>
    match p.read (c :: t) with
    | some (a, rest) => some ([], a, rest)
    | none => (find? t).map fun (front, a, rest) => (c :: front, a, rest)

/-- The text with every lexeme written by `f`. -/
def replace (f : α → Text) (t : Text) : Text := (p.pieces t).flatMap (Piece.print f)

theorem pieces_of_read {t rest : Text} {a : α} (h : p.read t = some (a, rest)) :
    p.pieces t = .lexeme a :: p.pieces rest := by
  rw [pieces]
  split
  · next b r hb =>
    obtain ⟨rfl, rfl⟩ := Prod.mk.inj (Option.some.inj (hb.symm.trans h))
    rfl
  · next hn => simp [h] at hn

theorem pieces_cons_of_read_none {c : Char} {t : Text} (h : p.read (c :: t) = none) :
    p.pieces (c :: t) = .char c :: p.pieces t := by
  rw [pieces]
  split
  · next hs => simp [h] at hs
  · rfl

theorem read_nil : p.read [] = none := by
  cases h : p.read [] with
  | none => rfl
  | some found => exact absurd (p.length_lt h) (Nat.not_lt_zero _)

@[simp] theorem pieces_nil : p.pieces [] = [] := by
  rw [pieces]
  split
  · next hs => simp [p.read_nil] at hs
  · rfl

/-- The pieces of a text print back to it. -/
@[simp] theorem print_pieces (t : Text) : (p.pieces t).flatMap (Piece.print p.print) = t := by
  fun_induction pieces p t with
  | case1 t a rest h ih => simp [Piece.print, ih, ← p.eq_append h]
  | case2 => rfl
  | case3 c t _ ih => simpa [Piece.print, wfParam] using ih

theorem eq_append_of_find? {t front rest : Text} {a : α}
    (h : p.find? t = some (front, a, rest)) : t = front ++ p.print a ++ rest := by
  induction t generalizing front with
  | nil => simp [find?] at h
  | cons c t ih =>
    unfold find? at h
    split at h
    · next hr =>
      simp only [Option.some.injEq, Prod.mk.injEq] at h
      obtain ⟨rfl, rfl, rfl⟩ := h
      simpa using p.eq_append hr
    · simp only [Option.map_eq_some_iff, Prod.exists, Prod.mk.injEq] at h
      obtain ⟨f, b, r, hr, rfl, rfl, rfl⟩ := h
      simpa using ih hr

/-- Writing every lexeme as it was read changes nothing. -/
@[simp] theorem replace_print (t : Text) : p.replace p.print t = t := p.print_pieces t

end Pattern
end HtmlTemplate
