import HtmlTemplate.Text.Ranges

/-!
# Classes of characters

Blanks, decimal digits, word characters and alphanumeric characters, as Unicode defines them. ASCII
characters are decided directly, all others by the range tables. `isWord` and `isAlphanumeric` differ:
a combining mark is only a word character, a superscript digit is only alphanumeric.
-/

namespace HtmlTemplate.Text

/-- Whether a code point lies in one of the ranges. -/
def inRanges (ranges : List (Nat × Nat)) (n : Nat) : Bool :=
  ranges.any fun range => range.1 ≤ n && n ≤ range.2

/-- Unicode white space. -/
def isBlank (c : Char) : Bool :=
  if c.toNat < 0x80 then c.toNat == 0x20 || (0x09 ≤ c.toNat && c.toNat ≤ 0x0d)
  else inRanges Ranges.blank c.toNat

/-- Decimal digits of any script. -/
def isDigit (c : Char) : Bool :=
  if c.toNat < 0x80 then c.isDigit else inRanges Ranges.decimalDigit c.toNat

/-- Word characters: letters, marks, decimal digits, connector punctuation and joiners. -/
def isWord (c : Char) : Bool :=
  if c.toNat < 0x80 then c.isAlphanum || c == '_'
  else inRanges Ranges.alphabetic c.toNat || inRanges Ranges.mark c.toNat ||
    inRanges Ranges.decimalDigit c.toNat || inRanges Ranges.connector c.toNat ||
    inRanges Ranges.joinControl c.toNat

/-- Alphanumeric characters: letters and numbers of every kind. -/
def isAlphanumeric (c : Char) : Bool :=
  if c.toNat < 0x80 then c.isAlphanum
  else inRanges Ranges.alphabetic c.toNat || inRanges Ranges.decimalDigit c.toNat ||
    inRanges Ranges.otherNumber c.toNat

theorem isWord_of_ascii {c : Char} (h : c.toNat < 0x80) :
    isWord c = (c.isAlphanum || c == '_') := by
  simp [isWord, h]

theorem isAlphanumeric_of_ascii {c : Char} (h : c.toNat < 0x80) :
    isAlphanumeric c = c.isAlphanum := by
  simp [isAlphanumeric, h]

end HtmlTemplate.Text
