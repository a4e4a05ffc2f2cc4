import HtmlTemplate.Data.Yaml.Cursor

/-!
# Texts of YAML scalars

Plain scalars, scalars in single and double quotes, and block scalars. Inside the first three kinds a
line break is folded to a space, and further breaks are kept; a block scalar keeps its breaks when it
is literal and folds them between lines that do not begin with a blank when it is folded.
-/

namespace HtmlTemplate.Yaml

/-! ## Folding -/

/-- The blanks between two parts of a flow scalar: spaces, or a line break and further breaks. -/
structure Fold where
  spaces : Text := []
  broken : Bool := false
  leading : Text := []
  trailing : Text := []

/-- What the blanks contribute. -/
def Fold.text (f : Fold) : Text :=
  if f.broken then
    if f.leading = ['\n'] then (if f.trailing.isEmpty then [' '] else f.trailing)
    else f.leading ++ f.trailing
  else f.spaces

/-- Reads blanks and line breaks. On further lines, a tab before column `indent` is refused. -/
def readFold (indent : Nat) : (fuel : Nat) → Cursor → Fold → Option (Cursor × Fold)
  | 0, _, _ => none
  | fuel + 1, c, f =>
    match c.ahead? 0 with
    | none => some (c, f)
    | some x =>
      if isSpace x then
        if f.broken && c.column < indent && x == '\t' then none
        else readFold indent fuel c.next
          (if f.broken then f else { f with spaces := f.spaces ++ [x] })
      else if isBreak x then
        readFold indent fuel c.nextLine
          (if f.broken then { f with trailing := f.trailing ++ c.breakText }
           else { f with spaces := [], leading := c.breakText, broken := true })
      else some (c, f)

/-! ## Plain scalars -/

/-- Whether a character ends a plain scalar inside brackets or braces. -/
def isFlowEnd (x : Char) : Bool :=
  x == ',' || x == '[' || x == ']' || x == '\x7b' || x == '\x7d'

/-- The part of a plain scalar up to the next blank or to its end. A colon before a flow indicator is
refused. -/
def readPlainPart (inFlow : Bool) : Text → Option Text
  | [] => some []
  | x :: rest =>
    if isSpace x || isBreak x then some []
    else if inFlow && x == ':' && rest.head?.any fun y => isFlowEnd y || y == '?' then none
    else if (x == ':' && rest.head?.all fun y => isSpace y || isBreak y) || (inFlow && isFlowEnd x) then
      some []
    else (readPlainPart inFlow rest).map (x :: ·)

/-- Reads a plain scalar: its text, what follows it, and whether line breaks were read after it. The
blanks `f` before a part belong to the scalar only if the part is not empty. -/
def readPlain (inFlow : Bool) (indent : Nat) :
    (fuel : Nat) → Cursor → Fold → Option (Text × Cursor × Bool)
  | 0, _, _ => none
  | fuel + 1, c, f =>
    if c.atDocumentMarker || c.sees 0 '#' then some ([], c, f.broken)
    else do
      let part ← readPlainPart inFlow c.rest
      let c := c.skip part.length
      let (text, f) := if part.isEmpty then ([], f) else (f.text ++ part, {})
      if c.atEnd || !c.seesGap 0 then return (text, c, f.broken)
      let (c, f) ← readFold indent (fuel + 1) c f
      if !inFlow && c.column < indent then return (text, c, f.broken)
      let (rest, c, broken) ← readPlain inFlow indent fuel c f
      return (text ++ rest, c, broken)

/-! ## Quoted scalars -/

/-- The character with a code written in hexadecimal digits. -/
def charOfHex? (digits : Text) : Option Char := do
  let n ← digits.foldlM (fun n x => (Text.hexValue? x).map (n * 16 + ·)) 0
  guard (n < 0xd800 ∨ 0xe000 ≤ n ∧ n ≤ 0x10ffff)
  return Char.ofNat n

/-- The character that one letter after a backslash stands for. -/
def escaped? (x : Char) : Option Char :=
  match x with
  | '0' => some '\x00'
  | 'a' => some '\x07'
  | 'b' => some '\x08'
  | 't' => some '\t'
  | '\t' => some '\t'
  | 'n' => some '\n'
  | 'v' => some '\x0b'
  | 'f' => some '\x0c'
  | 'r' => some '\r'
  | 'e' => some '\x1b'
  | ' ' => some ' '
  | '"' => some '"'
  | '/' => some '/'
  | '\\' => some '\\'
  | 'N' => some '\u0085'
  | '_' => some '\u00a0'
  | 'L' => some '\u2028'
  | 'P' => some '\u2029'
  | _ => none

/-- How many hexadecimal digits follow a letter after a backslash. -/
def hexDigits? (x : Char) : Option Nat :=
  match x with
  | 'x' => some 2
  | 'u' => some 4
  | 'U' => some 8
  | _ => none

def readEscape (c : Cursor) : Option (Char × Cursor) := do
  let x ← c.ahead? 1
  match hexDigits? x with
  | some n =>
    let digits := (c.rest.drop 2).take n
    guard (digits.length = n)
    return (← charOfHex? digits, c.skip (2 + n))
  | none => return (← escaped? x, c.skip 2)

/-- Reads the part of a quoted scalar up to the next blank or to its closing quote. The last result
tells whether the part ends in an escaped line break. -/
def readQuotedPart (quote : Char) : (fuel : Nat) → Cursor → Option (Text × Cursor × Bool)
  | 0, _ => none
  | fuel + 1, c =>
    match c.ahead? 0 with
    | none => some ([], c, false)
    | some x =>
      if isSpace x || isBreak x then some ([], c, false)
      else if x == quote then
        if quote == '\'' && c.sees 1 '\'' then
          (readQuotedPart quote fuel (c.skip 2)).map fun (t, r) => ('\'' :: t, r)
        else some ([], c, false)
      else if quote == '"' && x == '\\' then
        if c.seesBreak 1 then some ([], c.next.nextLine, true)
        else do
          let (y, c) ← readEscape c
          let (t, r) ← readQuotedPart quote fuel c
          return (y :: t, r)
      else (readQuotedPart quote fuel c.next).map fun (t, r) => (x :: t, r)

/-- Reads a quoted scalar from after its opening quote. -/
def readQuoted (quote : Char) : (fuel : Nat) → Cursor → Option (Text × Cursor)
  | 0, _ => none
  | fuel + 1, c =>
    if c.atDocumentMarker || c.atEnd then none
    else do
      let (part, c, brokenHere) ← readQuotedPart quote (fuel + 1) c
      if c.sees 0 quote then return (part, c.next)
      let (c, f) ← readFold 0 (fuel + 1) c { broken := brokenHere }
      let (rest, c) ← readQuoted quote fuel c
      return (part ++ f.text ++ rest, c)

/-! ## Block scalars -/

/-- What becomes of the line breaks at the end of a block scalar. -/
inductive Chomping where
  | strip | clip | keep
  deriving DecidableEq

/-- Reads the chomping and indentation indicators in the header of a block scalar. -/
def readHeader : (fuel : Nat) → Cursor → Option Chomping → Option Nat →
    Option (Option Chomping × Option Nat × Cursor)
  | 0, c, chomping, increment => some (chomping, increment, c)
  | fuel + 1, c, chomping, increment =>
    match c.ahead? 0, chomping, increment with
    | some '+', none, _ => readHeader fuel c.next (some .keep) increment
    | some '-', none, _ => readHeader fuel c.next (some .strip) increment
    | some x, _, none =>
      if x.isDigit then
        if x == '0' then none
        else readHeader fuel c.next chomping (some (x.toNat - '0'.toNat))
      else some (chomping, increment, c)
    | _, _, _ => some (chomping, increment, c)

/-- Reads the indentation and the empty lines before a line of a block scalar. `indent` is the column
of its lines, if known; the greatest column met comes back. -/
def readIndent (indent : Option Nat) : (fuel : Nat) → Cursor → Text → Nat → Option (Cursor × Text × Nat)
  | 0, _, _, _ => none
  | fuel + 1, c, breaks, widest =>
    let limit := c.rest.takeWhile (· == ' ')
    let spaces := match indent with
      | some n => min limit.length (n - c.column)
      | none => limit.length
    let c := c.skip spaces
    let widest := max widest c.column
    if c.sees 0 '\t' && indent.all fun n => c.column < n then none
    else if c.seesBreak 0 then readIndent indent fuel c.nextLine (breaks ++ c.breakText) widest
    else some (c, breaks, widest)

/-- Reads the lines of a block scalar, and the breaks after the last of them. `leading` is the break
after the line before, `trailing` the breaks of the empty lines since then. -/
def readLines (literal : Bool) (indent : Nat) : (fuel : Nat) → Cursor → (leading trailing : Text) →
    (afterBlank : Bool) → Option (Text × Text × Text × Cursor)
  | 0, _, _, _, _ => none
  | fuel + 1, c, leading, trailing, afterBlank =>
    if c.column != indent || c.atEnd then some ([], leading, trailing, c)
    else do
      let blank := c.seesSpace 0
      let joint :=
        if !literal && leading == ['\n'] && !afterBlank && !blank then
          (if trailing.isEmpty then [' '] else [])
        else leading
      let (line, c) := c.span (!isBreak ·)
      let (next, empty, _) ←
        readIndent (some indent) (fuel + 1) (if c.atEnd then c else c.nextLine) [] 0
      let (rest, ending) ← readLines literal indent fuel next c.breakText empty blank
      return (joint ++ trailing ++ line ++ rest, ending)

/-- Reads a block scalar from after its indicator. `parent` is the column of the block it stands in. -/
def readBlock (literal : Bool) (parent : Int) (fuel : Nat) (c : Cursor) : Option (Text × Cursor) := do
  let (chomping, increment, c) ← readHeader 2 c none none
  let c ← c.endLine?
  let fixed := increment.map fun n => if 0 ≤ parent then parent.toNat + n else n
  let (c, trailing, widest) ← readIndent fixed fuel c [] 0
  let indent := fixed.getD (max (max widest (parent + 1).toNat) 1)
  let (text, leading, trailing, c) ← readLines literal indent fuel c [] trailing false
  let ending := match chomping with
    | some .strip => []
    | none => leading
    | some .clip => leading
    | some .keep => leading ++ trailing
  return (text ++ ending, c)

end HtmlTemplate.Yaml
