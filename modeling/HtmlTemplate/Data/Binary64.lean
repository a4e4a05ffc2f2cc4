import HtmlTemplate.Text.Basic

/-!
# Binary floating point

Finite numbers of the 64-bit binary format, as sign, mantissa and exponent, so that all arithmetic is
arithmetic of natural numbers. Products, quotients and conversions are rounded once, to the nearest
number and to the even mantissa at a tie; a magnitude beyond the largest number has no result.
-/

namespace HtmlTemplate

/-- The number `± mantissa · 2 ^ exponent`. The mantissa has 53 bits, or fewer at the least exponent. -/
structure Binary64 where
  negative : Bool
  mantissa : Nat
  exponent : Int
  deriving Repr, DecidableEq

namespace Binary64

/-- The least exponent, that of the subnormal numbers. -/
def minExponent : Int := -1074

def maxExponent : Int := 971

def zero (negative : Bool) : Binary64 := ⟨negative, 0, minExponent⟩

def isZero (x : Binary64) : Bool := x.mantissa == 0

/-- The number with the sign given. -/
def withSign (x : Binary64) (negative : Bool) : Binary64 := { x with negative }

/-- `2 ^ e`, or 1 for a negative exponent. -/
def twoPow (e : Int) : Nat := Nat.pow 2 e.toNat

/-- `10 ^ e`, or 1 for a negative exponent. -/
def tenPow (e : Int) : Nat := Nat.pow 10 e.toNat

/-- The natural number nearest to a quotient; a tie goes to the even one. -/
def roundQuotient (num den : Nat) : Nat :=
  let q := num / den
  let twice := 2 * (num % den)
  if twice < den || (twice == den && q % 2 == 0) then q else q + 1

/-- The exponent of the last mantissa bit of a number near `num / den`. -/
def unitExponent (num den : Nat) : Int :=
  let e : Int := num.log2 - den.log2
  let e := if den * twoPow e ≤ num * twoPow (-e) then e else e - 1
  max (e - 52) minExponent

/-- The number nearest to `± num / den`; none if its magnitude is too large. -/
def ofQuotient? (negative : Bool) (num den : Nat) : Option Binary64 :=
  if num = 0 then some (zero negative)
  else
    let e := unitExponent num den
    let m := roundQuotient (num * twoPow (-e)) (den * twoPow e)
    let (m, e) := if m = twoPow 53 then (twoPow 52, e + 1) else (m, e)
    if e ≤ maxExponent then some ⟨negative, m, e⟩ else none

def ofNat? (n : Nat) : Option Binary64 := ofQuotient? false n 1

def mul? (x y : Binary64) : Option Binary64 :=
  let e := x.exponent + y.exponent
  ofQuotient? (x.negative != y.negative) (x.mantissa * y.mantissa * twoPow e) (twoPow (-e))

/-- The rounded quotient of `x` by a number that is not zero. -/
def div? (x y : Binary64) : Option Binary64 :=
  let e := x.exponent - y.exponent
  ofQuotient? (x.negative != y.negative) (x.mantissa * twoPow e) (y.mantissa * twoPow (-e))

/-- The number nearest to `significand · 10 ^ exponent`. -/
def ofDecimal? (negative : Bool) (significand : Nat) (exponent : Int) : Option Binary64 :=
  ofQuotient? negative (significand * tenPow exponent) (tenPow (-exponent))

/-! ## Shortest decimals -/

/-- A decimal `0.d₁d₂… · 10 ^ (exponent + 1)`: its digits, and the power of ten of the first one. -/
structure Digits where
  digits : Text
  exponent : Int
  deriving Repr, DecidableEq

/-- The power of ten of the first digit of the positive quotient `num / den`. -/
def leadingPower (num den : Nat) : Int :=
  if den ≤ num then ((Text.numeral (num / den)).length : Int) - 1
  else -((Text.numeral ((den - 1) / num)).length : Int)

/-- The decimal with at most `count` digits that is nearest to `x` among those that round to `x`. With
`unit` as the last digit's power of ten, every magnitude is compared as a multiple of a common unit. -/
def digitsOfLength? (x : Binary64) (power : Int) (count : Nat) : Option (Nat × Int) :=
  let unit := power + 1 - count
  let e := x.exponent - 2
  let scale := tenPow unit * twoPow (-e)
  let grain := tenPow (-unit) * twoPow e
  let value := 4 * x.mantissa * grain
  let below := if x.mantissa = twoPow 52 ∧ x.exponent ≠ minExponent then 1 else 2
  let low := (4 * x.mantissa - below) * grain
  let high := (4 * x.mantissa + 2) * grain
  let inside (n : Nat) : Bool :=
    if x.mantissa % 2 = 0 then low ≤ n * scale && n * scale ≤ high
    else low < n * scale && n * scale < high
  let floor := value / scale
  let distanceBelow := value - floor * scale
  let distanceAbove := (floor + 1) * scale - value
  let pickFloor : Bool := distanceBelow < distanceAbove ||
    (distanceBelow == distanceAbove && floor % 2 == 0)
  match inside floor, inside (floor + 1) with
  | true, true => some (if pickFloor then floor else floor + 1, unit)
  | true, false => some (floor, unit)
  | false, true => some (floor + 1, unit)
  | false, false => none

/-- The digits of `n · 10 ^ unit` without trailing zeros. -/
def Digits.ofScaled (n : Nat) (unit : Int) : Digits :=
  let written := Text.numeral n
  ⟨(written.reverse.dropWhile (· == '0')).reverse, unit + written.length - 1⟩

/-- The fewest digits that round to the magnitude of `x`, nearest to it among those. Seventeen digits
always suffice. -/
def shortest (x : Binary64) : Digits :=
  if x.isZero then ⟨['0'], 0⟩
  else
    let power := leadingPower (x.mantissa * twoPow x.exponent) (twoPow (-x.exponent))
    match (List.range' 1 17).findSome? (digitsOfLength? x power) with
    | some (n, unit) => .ofScaled n unit
    | none => ⟨['0'], 0⟩

end Binary64
end HtmlTemplate
