import HtmlTemplate.Text.Class

/-!
# Texts

A text is a list of characters, so that every law about texts is a law about lists. This module has
the operations that all others share: trimming, words, cutting at a mark, comparing without ASCII
case, decimal numerals, and the byte offsets that name positions to the outside.
-/

namespace HtmlTemplate

/-- A text is a list of characters. -/
abbrev Text := List Char

namespace Text

def str (t : Text) : String := String.ofList t

/-! ## Blanks -/

/-- `t` without its leading blanks. -/
def trimLeft (t : Text) : Text := t.dropWhile isBlank

/-- `t` without its trailing blanks. -/
def trimRight (t : Text) : Text := (t.reverse.dropWhile isBlank).reverse

/-- `t` without the blanks at either end. -/
def trim (t : Text) : Text := t.trimLeft.trimRight

/-- The longest pieces of `t` without blanks, in order. -/
def words (t : Text) : List Text := (t.splitOnP isBlank).filter fun word => !word.isEmpty

/-! ## Marks -/

/-- What follows `mark` at the front of a text. -/
def after? : Text → Text → Option Text
  | [], t => some t
  | _ :: _, [] => none
  | m :: mark, c :: t => if m = c then after? mark t else none

/-- Cuts a text at the first place where `mark` stands: what precedes it and what follows it. -/
def cut? (mark : Text) : Text → Option (Text × Text)
  | [] => (after? mark []).map fun rest => ([], rest)
  | c :: t =>
    match after? mark (c :: t) with
    | some rest => some ([], rest)
    | none => (cut? mark t).map fun (front, rest) => (c :: front, rest)

theorem eq_append_of_after? {mark t rest : Text} (h : after? mark t = some rest) :
    t = mark ++ rest := by
  fun_induction after? mark t with
  | case1 t => simpa using h
  | case2 => simp at h
  | case3 m t mark ih => simpa using ih h
  | case4 => simp at h

@[simp] theorem after?_append (mark rest : Text) : after? mark (mark ++ rest) = some rest := by
  induction mark with
  | nil => rfl
  | cons m mark ih => simp [after?, ih]

theorem eq_append_of_cut? {mark t front rest : Text} (h : cut? mark t = some (front, rest)) :
    t = front ++ mark ++ rest := by
  induction t generalizing front with
  | nil =>
    obtain ⟨r, hr, he⟩ := Option.map_eq_some_iff.1 h
    obtain ⟨rfl, rfl⟩ := Prod.mk.inj he
    simpa using eq_append_of_after? hr
  | cons c t ih =>
    unfold cut? at h
    split at h
    · next r hr =>
      obtain ⟨rfl, rfl⟩ := Prod.mk.inj (Option.some.inj h)
      simpa using eq_append_of_after? hr
    · obtain ⟨⟨f, r⟩, hr, he⟩ := Option.map_eq_some_iff.1 h
      obtain ⟨rfl, rfl⟩ := Prod.mk.inj he
      simpa using ih hr

/-! ## Case, numerals -/

/-- `t` with its ASCII letters in lower case. -/
def lower (t : Text) : Text := t.map Char.toLower

/-- Equality up to the case of ASCII letters. -/
def sameUpToCase (s t : Text) : Bool := s.lower == t.lower

def numeral (n : Nat) : Text := Nat.toDigits 10 n

/-- The number that a run of ASCII digits denotes; none for any other text. -/
def ofNumeral? (t : Text) : Option Nat :=
  if !t.isEmpty && t.all Char.isDigit then some (Nat.ofDigitChars 10 t 0) else none

/-- The value of a hexadecimal digit in either case. -/
def hexValue? (c : Char) : Option Nat :=
  if c.isDigit then some (c.toNat - '0'.toNat)
  else if 'a' ≤ c ∧ c ≤ 'f' then some (c.toNat - 'a'.toNat + 10)
  else if 'A' ≤ c ∧ c ≤ 'F' then some (c.toNat - 'A'.toNat + 10)
  else none

/-! ## Byte offsets -/

/-- The number of bytes of `t` in UTF-8. -/
def byteLength (t : Text) : Nat := t.foldr (fun c n => c.utf8Size + n) 0

/-- The number of characters of `t` that begin in its first `n` bytes. -/
def charsInBytes : Nat → Text → Nat
  | 0, _ => 0
  | _, [] => 0
  | n + 1, c :: t => charsInBytes (n + 1 - c.utf8Size) t + 1

@[simp] theorem byteLength_nil : byteLength [] = 0 := rfl

theorem byteLength_cons (c : Char) (t : Text) : byteLength (c :: t) = c.utf8Size + byteLength t := rfl

@[simp] theorem byteLength_append (s t : Text) :
    byteLength (s ++ t) = byteLength s + byteLength t := by
  induction s with
  | nil => simp
  | cons c s ih => simp_all [byteLength, Nat.add_assoc]

theorem byteLength_eq_zero_iff {t : Text} : byteLength t = 0 ↔ t = [] := by
  cases t with
  | nil => simp
  | cons c t =>
    have hpos := c.utf8Size_pos
    have hlength := byteLength_cons c t
    simp only [reduceCtorEq, iff_false]
    omega

end Text
end HtmlTemplate
