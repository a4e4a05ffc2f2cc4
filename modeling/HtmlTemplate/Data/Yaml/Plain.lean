import HtmlTemplate.Data.Value
import HtmlTemplate.Data.Yaml.Scalar

/-!
# What plain scalars mean

A plain scalar is null, a boolean, a number or, failing these, a string. Integers are decimal without
leading zeros, or hexadecimal, octal or binary with a mark in front. Real numbers are rounded to the
nearest; those that are infinite or no number at all become null.
-/

namespace HtmlTemplate.Yaml

namespace Plain

def isNull (t : Text) : Bool :=
  t = ['~'] || t = "null".toList || t = "Null".toList || t = "NULL".toList

def bool? (t : Text) : Option Bool :=
  if t = "true".toList || t = "True".toList || t = "TRUE".toList then some true
  else if t = "false".toList || t = "False".toList || t = "FALSE".toList then some false
  else none

/-! ## Integers -/

/-- The number that digits denote in a base of at most sixteen. -/
def ofDigits? (base : Nat) (digits : Text) : Option Nat :=
  if digits.isEmpty then none
  else
    digits.foldlM (fun n c => ((Text.hexValue? c).filter (· < base)).map (n * base + ·)) 0

/-- Whether digits begin with a zero that they need not have. -/
def hasLeadingZero (digits : Text) : Bool := 1 < digits.length && digits.head? == some '0'

/-- The magnitude of an integer without a sign. -/
def magnitude? : Text → Option Nat
  | '0' :: 'x' :: digits => ofDigits? 16 digits
  | '0' :: 'o' :: digits => ofDigits? 8 digits
  | '0' :: 'b' :: digits => ofDigits? 2 digits
  | digits => if hasLeadingZero digits then none else Text.ofNumeral? digits

/-- The integer that a scalar is, however large. -/
def integer? : Text → Option Int
  | '-' :: t => (magnitude? t).map fun n => -(n : Int)
  | '+' :: t => (magnitude? t).map fun n => (n : Int)
  | t => (magnitude? t).map fun n => (n : Int)

/-- Whether an integer fits 64 bits, with or without a sign. -/
def fitsWord (n : Int) : Bool := -(Nat.pow 2 63 : Nat) ≤ n && n < (Nat.pow 2 64 : Nat)

/-- Whether an integer fits 128 bits, with or without a sign. -/
def fitsDoubleWord (n : Int) : Bool := -(Nat.pow 2 127 : Nat) ≤ n && n < (Nat.pow 2 128 : Nat)

/-! ## Real numbers -/

/-- Whether a scalar is an infinity or not a number. -/
def isNonFinite (t : Text) : Bool :=
  let unsigned := match t with
    | '+' :: t => t
    | '-' :: t => t
    | t => t
  unsigned = ".inf".toList || unsigned = ".Inf".toList || unsigned = ".INF".toList ||
    t = ".nan".toList || t = ".NaN".toList || t = ".NAN".toList

/-- The exponent of a decimal, with nothing after it. -/
def exponent? : Text → Option Int
  | [] => some 0
  | c :: t =>
    if c == 'e' || c == 'E' then
      match t with
      | '-' :: digits => (Text.ofNumeral? digits).map fun n => -(n : Int)
      | '+' :: digits => (Text.ofNumeral? digits).map fun n => (n : Int)
      | digits => (Text.ofNumeral? digits).map fun n => (n : Int)
    else none

/-- The number nearest to a decimal with its point after `whole`. Decimals far out of range are settled
by the place of their first digit. -/
def nearest? (negative : Bool) (whole fraction : Text) (exponent : Int) : Option Binary64 :=
  let significand := Nat.ofDigitChars 10 (whole ++ fraction) 0
  let exponent := exponent - fraction.length
  let place := exponent + (Text.numeral significand).length
  if significand = 0 || place < -330 then some (.zero negative)
  else if 310 < place then none
  else Binary64.ofDecimal? negative significand exponent

/-- The real number that an unsigned decimal is. A digit must stand on one side of the point. -/
def decimal? (negative : Bool) (t : Text) : Option Binary64 :=
  let whole := t.takeWhile Char.isDigit
  let t := t.dropWhile Char.isDigit
  let (fraction, t) := match t with
    | '.' :: t => (t.takeWhile Char.isDigit, t.dropWhile Char.isDigit)
    | t => ([], t)
  if whole.isEmpty && fraction.isEmpty then none
  else (exponent? t).bind (nearest? negative whole fraction)

def real? : Text → Option Binary64
  | '-' :: t => decimal? true t
  | '+' :: t => decimal? false t
  | t => decimal? false t

/-- Whether a scalar is digits with a zero in front, which make no number. -/
def isPadded (t : Text) : Bool :=
  let digits := match t with
    | '-' :: t => t
    | '+' :: t => t
    | t => t
  hasLeadingZero digits && digits.all Char.isDigit

/-! ## Values -/

/-- The value of an integer; none if it needs more than 64 bits. -/
def ofInteger? (n : Int) : Option Value :=
  if fitsWord n then some (.number (.whole n)) else none

def ofReal? (t : Text) : Option Value :=
  if isNonFinite t then some .null else (real? t).map fun x => .number (.real x)

/-- The value of a plain scalar. An integer beyond 64 bits is refused, one beyond 128 is a real
number. -/
def value? (t : Text) : Option Value :=
  if t.isEmpty || isNull t then some .null
  else
    match bool? t with
    | some b => some (.bool b)
    | none =>
      match (integer? t).filter fitsDoubleWord with
      | some n => ofInteger? n
      | none => if isPadded t then some (.string t) else some ((ofReal? t).getD (.string t))

end Plain
end HtmlTemplate.Yaml
