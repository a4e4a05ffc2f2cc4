import HtmlTemplate.Data.Value

/-!
# Reading JSON

`Json.read?` reads a JSON text as a value whose objects keep their members as written, repeated keys
included; `Json.parse?` gives a repeated key its first place and its last value. Whole numbers that
fit 64 bits stay whole. Any other number is converted in two rounded steps: its first digits, as many
as fit 64 bits, to a binary number, and that number scaled by a power of ten. Arrays and objects nest
at most 127 deep.
-/

namespace HtmlTemplate.Json

/-! ## Numbers -/

/-- A number as written: sign, whole digits, digits of the fraction, and exponent. -/
structure Literal where
  negative : Bool
  whole : Text
  fraction : Option Text
  exponent : Option Int

def digitValue (c : Char) : Nat := c.toNat - '0'.toNat

/-- Appends digits to a significand for as long as it stays below `2 ^ 64`; gives the digits left. -/
def absorb : Nat → Text → Nat × Text
  | significand, [] => (significand, [])
  | significand, c :: digits =>
    let next := significand * 10 + digitValue c
    if next < UInt64.size then absorb next digits else (significand, c :: digits)

/-- Multiplies or divides by a power of ten. Powers beyond `10 ^ 308` are divided out in steps; a
result beyond the largest number is refused. -/
def scale? (x : Binary64) (exponent : Int) : Option Binary64 :=
  if h : exponent < -308 then
    if x.isZero then some x
    else (Binary64.ofNat? (Binary64.tenPow 308)).bind fun power =>
      (x.div? power).bind fun y => scale? y (exponent + 308)
  else if exponent < 0 then (Binary64.ofNat? (Binary64.tenPow (-exponent))).bind x.div?
  else if exponent ≤ 308 then (Binary64.ofNat? (Binary64.tenPow exponent)).bind x.mul?
  else if x.isZero then some x
  else none
termination_by (-exponent).toNat
decreasing_by omega

/-- The real number nearest to a significand, scaled. -/
def real? (negative : Bool) (significand : Nat) (exponent : Int) : Option Number :=
  ((Binary64.ofNat? significand).bind (scale? · exponent)).map fun x =>
    .real (x.withSign negative)

def Literal.number? (l : Literal) : Option Number :=
  let (significand, dropped) := absorb 0 l.whole
  match l.fraction, l.exponent with
  | none, none =>
    if !dropped.isEmpty then real? l.negative significand dropped.length
    else if !l.negative then some (.whole significand)
    else if 0 < significand ∧ 2 * significand ≤ UInt64.size then some (.whole (-significand))
    else real? true significand 0
  | fraction, exponent =>
    let places := fraction.getD []
    let (significand, unread) := absorb significand places
    real? l.negative significand
      (dropped.length + unread.length - places.length + exponent.getD 0)

/-- Reads an exponent, if there is one. A text that goes on with `e` must have its digits. -/
def readExponent (t : Text) : Option (Option Int × Text) :=
  match t with
  | c :: rest =>
    if c == 'e' || c == 'E' then
      let (negative, rest) := match rest with
        | '-' :: rest => (true, rest)
        | '+' :: rest => (false, rest)
        | rest => (false, rest)
      let digits := rest.takeWhile Char.isDigit
      if digits.isEmpty then none
      else
        let n : Int := Nat.ofDigitChars 10 digits 0
        some (some (if negative then -n else n), rest.drop digits.length)
    else some (none, t)
  | [] => some (none, t)

def readFraction (t : Text) : Option (Option Text × Text) :=
  match t with
  | '.' :: rest =>
    let digits := rest.takeWhile Char.isDigit
    if digits.isEmpty then none else some (some digits, rest.drop digits.length)
  | _ => some (none, t)

/-- Reads a number. Its whole part has no leading zeros. -/
def readNumber (t : Text) : Option (Number × Text) := do
  let (negative, t) := match t with
    | '-' :: rest => (true, rest)
    | _ => (false, t)
  let whole := t.takeWhile Char.isDigit
  guard (!whole.isEmpty && (whole.length == 1 || whole.head? != some '0'))
  let (fraction, t) ← readFraction (t.drop whole.length)
  let (exponent, t) ← readExponent t
  let number ← Literal.number? ⟨negative, whole, fraction, exponent⟩
  return (number, t)

/-! ## Strings -/

def readUnit : Text → Option (Nat × Text)
  | a :: b :: c :: d :: rest => do
    let a ← Text.hexValue? a
    let b ← Text.hexValue? b
    let c ← Text.hexValue? c
    let d ← Text.hexValue? d
    return (((a * 16 + b) * 16 + c) * 16 + d, rest)
  | _ => none

/-- Reads what follows `\u`: one unit, or a pair of surrogates. A surrogate alone is refused. -/
def readUnicode (t : Text) : Option (Char × Text) := do
  let (unit, t) ← readUnit t
  if 0xd800 ≤ unit ∧ unit < 0xdc00 then
    match t with
    | '\\' :: 'u' :: t =>
      let (low, t) ← readUnit t
      guard (0xdc00 ≤ low ∧ low < 0xe000)
      return (Char.ofNat (0x10000 + (unit - 0xd800) * 0x400 + (low - 0xdc00)), t)
    | _ => none
  else
    guard (unit < 0xdc00 ∨ 0xe000 ≤ unit)
    return (Char.ofNat unit, t)

def readEscape : Text → Option (Char × Text)
  | '"' :: t => some ('"', t)
  | '\\' :: t => some ('\\', t)
  | '/' :: t => some ('/', t)
  | 'b' :: t => some ('\x08', t)
  | 'f' :: t => some ('\x0c', t)
  | 'n' :: t => some ('\n', t)
  | 'r' :: t => some ('\r', t)
  | 't' :: t => some ('\t', t)
  | 'u' :: t => readUnicode t
  | _ => none

/-- Reads a string from its opening quote's successor up to and with its closing quote; `fuel` bounds
its length. -/
def readString : (fuel : Nat) → Text → Option (Text × Text)
  | 0, _ => none
  | fuel + 1, t =>
    match t with
    | [] => none
    | '"' :: t => some ([], t)
    | '\\' :: t => do
      let (c, t) ← readEscape t
      let (string, rest) ← readString fuel t
      return (c :: string, rest)
    | c :: t =>
      if c.toNat < 0x20 then none
      else (readString fuel t).map fun (string, rest) => (c :: string, rest)

/-! ## Values -/

def isSpace (c : Char) : Bool := c == ' ' || c == '\t' || c == '\n' || c == '\r'

/-- A text without its leading white space. -/
def skip (t : Text) : Text := t.dropWhile isSpace

mutual

/-- Reads a value. `fuel` bounds the characters, `depth` the arrays and objects inside each other. -/
def readValue (fuel depth : Nat) (t : Text) : Option (Value × Text) :=
  match fuel with
  | 0 => none
  | fuel + 1 =>
    match skip t with
    | '"' :: t => (readString (fuel + 1) t).map fun (string, rest) => (.string string, rest)
    | '[' :: t =>
      match depth with
      | 0 => none
      | depth + 1 =>
        match skip t with
        | ']' :: rest => some (.array [], rest)
        | t => (readItems fuel depth t).map fun (items, rest) => (.array items, rest)
    | '\x7b' :: t =>
      match depth with
      | 0 => none
      | depth + 1 =>
        match skip t with
        | '\x7d' :: rest => some (.object [], rest)
        | t => (readMembers fuel depth t).map fun (members, rest) => (.object members, rest)
    | 'n' :: 'u' :: 'l' :: 'l' :: rest => some (.null, rest)
    | 't' :: 'r' :: 'u' :: 'e' :: rest => some (.bool true, rest)
    | 'f' :: 'a' :: 'l' :: 's' :: 'e' :: rest => some (.bool false, rest)
    | t => (readNumber t).map fun (number, rest) => (.number number, rest)

/-- Reads one or more items up to and with the closing bracket. -/
def readItems (fuel depth : Nat) (t : Text) : Option (List Value × Text) :=
  match fuel with
  | 0 => none
  | fuel + 1 => do
    let (item, t) ← readValue fuel depth t
    match skip t with
    | ']' :: rest => return ([item], rest)
    | ',' :: t =>
      let (items, rest) ← readItems fuel depth t
      return (item :: items, rest)
    | _ => none

/-- Reads one or more members up to and with the closing brace. -/
def readMembers (fuel depth : Nat) (t : Text) : Option (List (Text × Value) × Text) :=
  match fuel with
  | 0 => none
  | fuel + 1 => do
    match skip t with
    | '"' :: t =>
      let (key, t) ← readString (fuel + 1) t
      match skip t with
      | ':' :: t =>
        let (value, t) ← readValue fuel depth t
        match skip t with
        | '\x7d' :: rest => return ([(key, value)], rest)
        | ',' :: t =>
          let (members, rest) ← readMembers fuel depth t
          return ((key, value) :: members, rest)
        | _ => none
      | _ => none
    | _ => none

end

def maxDepth : Nat := 127

/-- Reads a whole text as one value, its members as written. -/
def read? (t : Text) : Option Value :=
  match readValue (2 * t.length + 2) maxDepth t with
  | some (value, rest) => if (skip rest).isEmpty then some value else none
  | none => none

/-- A value in which each key of an object stands once, in its first place and with its last value. -/
def mergeKeys : Value → Value
  | .array items => .array (mergeItems items)
  | .object members => .object (mergeMembers [] members)
  | value => value
where
  /-- Items with their keys merged. -/
  mergeItems : List Value → List Value
    | [] => []
    | item :: items => mergeKeys item :: mergeItems items
  /-- Members set one after another. -/
  mergeMembers (merged : Members) : List (Text × Value) → Members
    | [] => merged
    | (key, value) :: members => mergeMembers (merged.set key (mergeKeys value)) members

/-- Reads a whole text as one value with merged keys. -/
def parse? (t : Text) : Option Value := (read? t).map mergeKeys

end HtmlTemplate.Json
