import HtmlTemplate.Data.Yaml.Scalar
import HtmlTemplate.Data.Yaml.Tag

/-!
# YAML tokens

A YAML text as a list of tokens. Indentation becomes start and end tokens of blocks, as deep as the
stack of open columns. A key is known only by the colon after it, so the place of a possible key is
remembered and its tokens are put in when the colon comes.
-/

namespace HtmlTemplate.Yaml

/-- The tokens of a YAML text. -/
inductive Token where
  | directive (directive : Directive)
  | documentStart
  | documentEnd
  | blockSequenceStart
  | blockMappingStart
  | blockEnd
  | flowSequenceStart
  | flowSequenceEnd
  | flowMappingStart
  | flowMappingEnd
  | blockEntry
  | flowEntry
  | key
  | value
  | aliasFor (name : Text)
  | anchor (name : Text)
  | tag (tag : Tag)
  | scalar (plain : Bool) (text : Text)
  deriving Repr, DecidableEq

/-- A place where a key may have begun. A required key is the first thing in its block's column. -/
structure PossibleKey where
  tokenIndex : Nat
  line : Nat
  column : Nat
  index : Nat
  required : Bool

/-- What has been read so far: the tokens, the columns of the open blocks, innermost first, and for
every open bracket, and once outside of them, the key that may have begun there. -/
structure Scan where
  cursor : Cursor
  /-- A bound on the characters that a loop can read: one more than the text has. -/
  fuel : Nat
  tokens : Array Token := #[]
  columns : List Nat := []
  keys : List (Option PossibleKey) := [none]
  keyAllowed : Bool := true

namespace Scan

def inFlow (s : Scan) : Bool := 1 < s.keys.length

/-- The column of the innermost block, or -1 outside of all. -/
def column (s : Scan) : Int :=
  match s.columns with
  | [] => -1
  | n :: _ => n

def push (s : Scan) (token : Token) : Scan := { s with tokens := s.tokens.push token }

/-- Adds a token of `n` characters. -/
def pushSkip (s : Scan) (token : Token) (n : Nat) : Scan :=
  { s.push token with cursor := s.cursor.skip n }

def allowKey (s : Scan) (keyAllowed : Bool) : Scan := { s with keyAllowed }

/-! ## Possible keys -/

/-- Forgets the possible key; one that was required is missed. -/
def dropKey (s : Scan) : Option Scan :=
  match s.keys with
  | some key :: keys => if key.required then none else some { s with keys := none :: keys }
  | _ => some s

def saveKey (s : Scan) : Option Scan :=
  if s.keyAllowed then do
    let s ← s.dropKey
    let key : PossibleKey :=
      { tokenIndex := s.tokens.size, line := s.cursor.line, column := s.cursor.column,
        index := s.cursor.index, required := !s.inFlow && s.column == s.cursor.column }
    return { s with keys := some key :: s.keys.drop 1 }
  else some s

def maxKeyLength : Nat := 1024

/-- Forgets the possible keys that are not on this line or too far back. -/
def dropStaleKeys (s : Scan) : Option Scan := do
  let keys ← s.keys.mapM fun key? =>
    match key? with
    | none => some none
    | some key =>
      if key.line < s.cursor.line || key.index + maxKeyLength < s.cursor.index then
        if key.required then none else some none
      else some (some key)
  return { s with keys }

/-! ## Blocks -/

/-- Opens a block at a column beyond the innermost one; its start token goes before token `place`. -/
def openBlock (s : Scan) (column place : Nat) (start : Token) : Scan :=
  if !s.inFlow && s.column < column then
    { s with
      columns := column :: s.columns
      tokens := s.tokens.insertIdxIfInBounds place start }
  else s

/-- Closes the blocks beyond a column. -/
def closeBlocks (s : Scan) (column : Int) : Scan :=
  if s.inFlow then s
  else
    let closed := s.columns.takeWhile fun (n : Nat) => column < n
    { s with
      columns := s.columns.drop closed.length
      tokens := s.tokens ++ Array.replicate closed.length .blockEnd }

/-! ## Single tokens -/

/-- Skips blanks, comments and line breaks. Tabs are skipped where no block can be indented. -/
def skipBlanks : (fuel : Nat) → Scan → Scan
  | 0, s => s
  | fuel + 1, s =>
    let c := s.cursor
    let c := if c.column == 0 && c.sees 0 '\ufeff' then c.next else c
    let (_, c) := c.span fun x => x == ' ' || ((s.inFlow || !s.keyAllowed) && x == '\t')
    let (_, c) := if c.sees 0 '#' then c.span (!isBreak ·) else ([], c)
    if c.seesBreak 0 then
      skipBlanks fuel { s with cursor := c.nextLine, keyAllowed := s.keyAllowed || !s.inFlow }
    else { s with cursor := c }

/-- Whether a character may follow the name of an anchor. -/
def endsName (x : Char) : Bool :=
  isSpace x || isBreak x || x == '?' || x == ':' || x == ',' || x == ']' || x == '\x7d' ||
    x == '%' || x == '@' || x == '\x60'

/-- Reads the name of an anchor or alias after its indicator. -/
def readName (s : Scan) : Option (Text × Cursor) := do
  let (name, c) := s.cursor.next.span isNameChar
  guard (!name.isEmpty && (c.ahead? 0).all endsName)
  return (name, c)

def openFlow (s : Scan) (token : Token) : Option Scan := do
  let s ← s.saveKey
  return ({ s with keys := none :: s.keys, keyAllowed := true }).pushSkip token 1

def closeFlow (s : Scan) (token : Token) : Option Scan := do
  let s ← s.dropKey
  return ({ s with keys := if s.inFlow then s.keys.drop 1 else s.keys, keyAllowed := false }).pushSkip
    token 1

def documentMarker (s : Scan) (token : Token) : Option Scan := do
  let s ← (s.closeBlocks (-1)).dropKey
  return (s.allowKey false).pushSkip token 3

/-- Reads the indicator of an entry of a block sequence. -/
def blockEntry (s : Scan) : Option Scan := do
  guard (s.inFlow || s.keyAllowed)
  let s := s.openBlock s.cursor.column s.tokens.size .blockSequenceStart
  let s ← s.dropKey
  return (s.allowKey true).pushSkip .blockEntry 1

def explicitKey (s : Scan) : Option Scan := do
  guard (s.inFlow || s.keyAllowed)
  let s := s.openBlock s.cursor.column s.tokens.size .blockMappingStart
  let s ← s.dropKey
  return (s.allowKey (!s.inFlow)).pushSkip .key 1

/-- Reads the colon before a value. If a key may have begun on this line, it did. -/
def value (s : Scan) : Option Scan :=
  match s.keys with
  | some key :: keys =>
    let place := key.tokenIndex
    let s := { s with
      tokens := s.tokens.insertIdxIfInBounds place .key
      keys := none :: keys }
    let s := s.openBlock key.column place .blockMappingStart
    some ((s.allowKey false).pushSkip .value 1)
  | _ => do
    guard (s.inFlow || s.keyAllowed)
    let s := s.openBlock s.cursor.column s.tokens.size .blockMappingStart
    return (s.allowKey (!s.inFlow)).pushSkip .value 1

def pushAt (s : Scan) (token : Token) (c : Cursor) : Scan := { s.push token with cursor := c }

def quoted (s : Scan) (quote : Char) : Option Scan := do
  let s ← s.saveKey
  let (text, c) ← readQuoted quote s.fuel s.cursor.next
  return (s.allowKey false).pushAt (.scalar false text) c

def block (s : Scan) (literal : Bool) : Option Scan := do
  let s ← s.dropKey
  let (text, c) ← readBlock literal s.column s.fuel s.cursor.next
  return (s.allowKey true).pushAt (.scalar false text) c

def plain (s : Scan) : Option Scan := do
  let s ← s.saveKey
  let (text, c, broken) ←
    readPlain s.inFlow (s.column + 1).toNat s.fuel s.cursor {}
  return (s.allowKey broken).pushAt (.scalar true text) c

/-- The characters that mean something in front of a scalar. -/
def indicators : Text :=
  ['-', '?', ':', ',', '[', ']', '\x7b', '\x7d', '#', '&', '*', '!', '|', '>', '\'', '"', '%', '@',
   '\x60']

/-- Whether a plain scalar may begin here. A tab that was not skipped begins nothing. -/
def startsPlain (s : Scan) (x : Char) : Bool :=
  let c := s.cursor
  (!isSpace x && !indicators.contains x) || (x == '-' && !c.seesSpace 1) ||
    (!s.inFlow && (x == '?' || x == ':') && !c.seesGap 1)

/-- Reads one token that begins with `x`. -/
def token (s : Scan) (x : Char) : Option Scan :=
  let c := s.cursor
  if c.column == 0 && x == '%' then do
    let s ← (s.closeBlocks (-1)).dropKey
    let (directive, c) ← Directive.read c
    return (s.allowKey false).pushAt (.directive directive) c
  else if c.atMarker '-' then s.documentMarker .documentStart
  else if c.atMarker '.' then s.documentMarker .documentEnd
  else if x == '[' then s.openFlow .flowSequenceStart
  else if x == '\x7b' then s.openFlow .flowMappingStart
  else if x == ']' then s.closeFlow .flowSequenceEnd
  else if x == '\x7d' then s.closeFlow .flowMappingEnd
  else if x == ',' then do
    let s ← s.dropKey
    return (s.allowKey true).pushSkip .flowEntry 1
  else if x == '-' && c.seesGap 1 then s.blockEntry
  else if x == '?' && (s.inFlow || c.seesGap 1) then s.explicitKey
  else if x == ':' && (s.inFlow || c.seesGap 1) then s.value
  else if x == '*' then do
    let s ← s.saveKey
    let (name, c) ← s.readName
    return (s.allowKey false).pushAt (.aliasFor name) c
  else if x == '&' then do
    let s ← s.saveKey
    let (name, c) ← s.readName
    return (s.allowKey false).pushAt (.anchor name) c
  else if x == '!' then do
    let s ← s.saveKey
    let (tag, c) ← Tag.read s.inFlow c
    return (s.allowKey false).pushAt (.tag tag) c
  else if x == '|' && !s.inFlow then s.block true
  else if x == '>' && !s.inFlow then s.block false
  else if x == '\'' then s.quoted '\''
  else if x == '"' then s.quoted '"'
  else if s.startsPlain x then s.plain
  else none

def run : (fuel : Nat) → Scan → Option (Array Token)
  | 0, _ => none
  | fuel + 1, s => do
    let s := skipBlanks s.fuel s
    let s ← s.dropStaleKeys
    let s := s.closeBlocks s.cursor.column
    match s.cursor.ahead? 0 with
    | some x => run fuel (← s.token x)
    | none =>
      let s ← (s.closeBlocks (-1)).dropKey
      return s.tokens

end Scan

/-- Whether a character may stand in a YAML text at all. -/
def isAllowed (x : Char) : Bool :=
  let n := x.toNat
  x == '\t' || x == '\n' || x == '\r' || (0x20 ≤ n && n ≤ 0x7e) || n == 0x85 ||
    (0xa0 ≤ n && n ≤ 0xfffd) || 0x10000 ≤ n

/-- The tokens of a YAML text; none if it is malformed. A byte order mark in front is skipped. -/
def tokens? (t : Text) : Option (List Token) :=
  let t := match t with
    | '\ufeff' :: rest => rest
    | _ => t
  if t.all isAllowed then
    (Scan.run (t.length + 2) { cursor := .ofText t, fuel := t.length + 1 }).map Array.toList
  else none

end HtmlTemplate.Yaml
