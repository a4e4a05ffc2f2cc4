import HtmlTemplate.Data.Binary64

/-!
# Numbers

A number of the render data is a whole number or a binary floating-point number. Whole numbers print
plainly. Floating-point numbers print with the fewest digits that read back, positionally for moderate
exponents and in scientific notation otherwise, and always with a point or an exponent.
-/

namespace HtmlTemplate

/-- A number of the render data. -/
inductive Number where
  | whole (n : Int)
  | real (x : Binary64)
  deriving Repr, DecidableEq

namespace Number

def isZero : Number → Bool
  | whole n => n == 0
  | real x => x.isZero

/-- The powers of ten of a first digit for which a real number is written positionally. -/
structure Layout where
  least : Int
  greatest : Int

/-- Real numbers are positional from `0.00001` to below ten quadrillion. -/
def layout : Layout := ⟨-5, 15⟩

/-- A decimal written positionally, with a fraction of at least one digit. -/
def positional (d : Binary64.Digits) : Text :=
  if d.exponent < 0 then
    ['0', '.'] ++ List.replicate (-d.exponent - 1).toNat '0' ++ d.digits
  else
    let places := d.exponent.toNat + 1
    let fraction := d.digits.drop places
    d.digits.take places ++ List.replicate (places - d.digits.length) '0' ++ ['.'] ++
      (if fraction.isEmpty then ['0'] else fraction)

/-- A decimal in scientific notation, its exponent always signed. -/
def scientific (d : Binary64.Digits) : Text :=
  let fraction := d.digits.drop 1
  d.digits.take 1 ++ (if fraction.isEmpty then [] else '.' :: fraction) ++
    ['e', if d.exponent < 0 then '-' else '+'] ++ Text.numeral d.exponent.natAbs

/-- A number as text. -/
def text : Number → Text
  | whole n => (if n < 0 then ['-'] else []) ++ Text.numeral n.natAbs
  | real x =>
    let d := x.shortest
    (if x.negative then ['-'] else []) ++
      if layout.least ≤ d.exponent ∧ d.exponent ≤ layout.greatest then positional d
      else scientific d

end Number
end HtmlTemplate
