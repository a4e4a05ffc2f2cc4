import HtmlTemplate.Text.Basic

/-!
# Positions in YAML text

A cursor stands before the rest of a text and knows its line and column, which YAML gives meaning to.
-/

namespace HtmlTemplate.Yaml

def isBreak (c : Char) : Bool :=
  c == '\n' || c == '\r' || c == '\u0085' || c == '\u2028' || c == '\u2029'

def isSpace (c : Char) : Bool := c == ' ' || c == '\t'

/-- Whether a character may stand in the name of an anchor, a tag handle or a directive. -/
def isNameChar (c : Char) : Bool := c.isAlphanum || c == '_' || c == '-'

/-- The rest of a text, and where it begins. -/
structure Cursor where
  rest : Text
  line : Nat
  column : Nat
  index : Nat

namespace Cursor

/-- The beginning of a text. -/
def ofText (t : Text) : Cursor := ⟨t, 0, 0, 0⟩

/-- The character `n` places ahead. -/
def ahead? (c : Cursor) (n : Nat) : Option Char := c.rest[n]?

/-- Whether the character `n` places ahead is `x`. -/
def sees (c : Cursor) (n : Nat) (x : Char) : Bool := c.ahead? n == some x

def atEnd (c : Cursor) : Bool := c.rest.isEmpty

/-- Whether a space or tab stands `n` places ahead. -/
def seesSpace (c : Cursor) (n : Nat) : Bool := (c.ahead? n).any isSpace

def seesBreak (c : Cursor) (n : Nat) : Bool := (c.ahead? n).any isBreak

/-- Whether a space, a tab, a line break or the end stands `n` places ahead. -/
def seesGap (c : Cursor) (n : Nat) : Bool :=
  (c.ahead? n).all fun x => isSpace x || isBreak x

/-- One character further on the same line. -/
def next (c : Cursor) : Cursor :=
  { c with rest := c.rest.drop 1, column := c.column + 1, index := c.index + 1 }

/-- `n` characters further on the same line. -/
def skip (c : Cursor) (n : Nat) : Cursor :=
  { c with rest := c.rest.drop n, column := c.column + n, index := c.index + n }

/-- After a line break; a carriage return and a line feed are one. -/
def nextLine (c : Cursor) : Cursor :=
  let n := if c.sees 0 '\r' && c.sees 1 '\n' then 2 else 1
  { rest := c.rest.drop n, line := c.line + 1, column := 0, index := c.index + n }

def breakText (c : Cursor) : Text :=
  match c.ahead? 0 with
  | some x => if x == '\u2028' || x == '\u2029' then [x] else if isBreak x then ['\n'] else []
  | none => []

/-- Whether a document marker of three such characters begins a line here. -/
def atMarker (c : Cursor) (x : Char) : Bool :=
  c.column == 0 && c.sees 0 x && c.sees 1 x && c.sees 2 x && c.seesGap 3

/-- Whether the start or the end of a document is marked here. -/
def atDocumentMarker (c : Cursor) : Bool := c.atMarker '-' || c.atMarker '.'

/-- The longest run of characters of a class on this line, and what follows it. -/
def span (c : Cursor) (p : Char → Bool) : Text × Cursor :=
  let run := c.rest.takeWhile p
  (run, c.skip run.length)

/-- After the line, if only blanks and a comment are left of it. -/
def endLine? (c : Cursor) : Option Cursor :=
  let (_, c) := c.span isSpace
  let (_, c) := if c.sees 0 '#' then c.span (!isBreak ·) else ([], c)
  if c.atEnd then some c else if c.seesBreak 0 then some c.nextLine else none

end Cursor
end HtmlTemplate.Yaml
