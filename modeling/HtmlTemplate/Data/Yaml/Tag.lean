import HtmlTemplate.Data.Yaml.Cursor

/-!
# YAML tags and directives

A tag names the type of a node. It is written in full between angle brackets, or as a handle and what
follows it; what a handle stands for is known beforehand or said by a directive of the document. An
escape stands for one octet, and the octets of a tag need not be those of a text.
-/

namespace HtmlTemplate.Yaml

abbrev Octets := List UInt8

def Octets.ofText (t : Text) : Octets := (String.ofList t).toUTF8.data.toList

/-! ## Characters of tags -/

/-- The characters of a tag besides those of names. -/
def tagMarks : Text :=
  [';', '/', '?', ':', '@', '&', '=', '+', '$', '.', '%', '!', '~', '*', '\'', '(', ')']

/-- Whether a character may stand in a tag. A tag in full may also have commas and brackets. -/
def isTagChar (full : Bool) (x : Char) : Bool :=
  isNameChar x || tagMarks.contains x || (full && (x == ',' || x == '[' || x == ']'))

/-- How many octets follow the first octet of a character. -/
def following? (octet : Nat) : Option Nat :=
  if octet < 0x80 then some 0
  else if octet < 0xc0 then none
  else if octet < 0xe0 then some 1
  else if octet < 0xf0 then some 2
  else if octet < 0xf8 then some 3
  else none

/-- The octets of a tag. Characters that are not escaped have one each, and `more` escaped ones must
come to complete a character. -/
def decodeTag : (more : Nat) → Text → Option Octets
  | more, '%' :: a :: b :: rest => do
    let octet := (← Text.hexValue? a) * 16 + (← Text.hexValue? b)
    let more ← match more with
      | 0 => following? octet
      | more + 1 => if 0x80 ≤ octet && octet < 0xc0 then some more else none
    return .ofNat octet :: (← decodeTag more rest)
  | 0, [] => some []
  | 0, x :: rest => if x == '%' then none else (decodeTag 0 rest).map (.ofNat x.toNat :: ·)
  | _ + 1, _ => none

/-- Reads the characters of a tag that begins with `head`; the exclamation mark there is none of them.
A zero octet ends the tag. -/
def readTagText (full : Bool) (head : Text) (c : Cursor) : Option (Octets × Cursor) := do
  let (run, c) := c.span (isTagChar full)
  guard (!(head ++ run).isEmpty)
  return ((← decodeTag 0 (head.drop 1 ++ run)).takeWhile (· ≠ 0), c)

/-- Reads an exclamation mark and a name, and tells whether a second mark makes them a handle. -/
def readHandle (c : Cursor) : Option (Text × Bool × Cursor) := do
  guard (c.sees 0 '!')
  let (name, c) := c.next.span isNameChar
  if c.sees 0 '!' then return ('!' :: name ++ ['!'], true, c.next)
  else return ('!' :: name, false, c)

/-! ## Tags -/

/-- A tag as it is written. A tag in full has no handle. -/
structure Tag where
  handle : Option Text
  octets : Octets
  deriving Repr, DecidableEq

namespace Tag

def readFull (c : Cursor) : Option (Tag × Cursor) := do
  let (octets, c) ← readTagText true [] (c.skip 2)
  guard (c.sees 0 '>')
  return (⟨none, octets⟩, c.next)

/-- Reads a handle and what follows it. An exclamation mark alone is a tag in full. -/
def readShort (c : Cursor) : Option (Tag × Cursor) := do
  let (handle, closed, c) ← readHandle c
  let (octets, c) ← readTagText false (if closed then [] else handle) c
  if closed then return (⟨some handle, octets⟩, c)
  else if octets.isEmpty then return (⟨none, .ofText ['!']⟩, c)
  else return (⟨some ['!'], octets⟩, c)

/-- Reads a tag up to the gap behind it. -/
def read (inFlow : Bool) (c : Cursor) : Option (Tag × Cursor) := do
  let (tag, c) ← if c.sees 1 '<' then readFull c else readShort c
  guard (c.seesGap 0 || (inFlow && c.sees 0 ','))
  return (tag, c)

end Tag

/-! ## Directives -/

/-- A directive before a document: the version of the language, or what a tag handle stands for. -/
inductive Directive where
  | version (major minor : Nat)
  | handle (name : Text) (octets : Octets)
  deriving Repr, DecidableEq

namespace Directive

def readNumber (c : Cursor) : Option (Nat × Cursor) := do
  let (digits, c) := c.span Char.isDigit
  guard (!digits.isEmpty && digits.length ≤ 9)
  return (Nat.ofDigitChars 10 digits 0, c)

def readVersion (c : Cursor) : Option (Directive × Cursor) := do
  let (major, c) ← readNumber c
  guard (c.sees 0 '.')
  let (minor, c) ← readNumber c.next
  return (.version major minor, c)

/-- Reads a handle and, behind blanks, what it stands for. -/
def readDeclaration (c : Cursor) : Option (Directive × Cursor) := do
  let (name, closed, c) ← readHandle c
  guard ((closed || name = ['!']) && c.seesSpace 0)
  let (_, c) := c.span isSpace
  let (octets, c) ← readTagText true [] c
  guard (c.seesGap 0)
  return (.handle name octets, c)

/-- Reads a directive from its percent sign on, and the end of its line. -/
def read (c : Cursor) : Option (Directive × Cursor) := do
  let (name, c) := c.next.span isNameChar
  guard (c.seesGap 0)
  let (_, c) := c.span isSpace
  let (directive, c) ←
    if name = "YAML".toList then readVersion c
    else if name = "TAG".toList then readDeclaration c
    else none
  return (directive, ← c.endLine?)

end Directive

/-! ## Handles -/

/-- What tag handles stand for. The first entry of a handle counts. -/
abbrev Handles := List (Text × Octets)

/-- What the tags of the language itself begin with. -/
def coreBeginning : Text := "tag:yaml.org,2002:".toList

def Handles.default : Handles := [(['!'], .ofText ['!']), (['!', '!'], .ofText coreBeginning)]

/-- The tag that is meant; none if its handle stands for nothing. -/
def Tag.resolve? (tag : Tag) (handles : Handles) : Option Octets :=
  match tag.handle with
  | none => some tag.octets
  | some handle => (handles.lookup handle).map (· ++ tag.octets)

/-- The handles of a document with these directives: the language must be of version 1.1 or 1.2, and
neither it nor a handle may be said twice. -/
def Handles.ofDirectives? (versioned : Bool) (declared : Handles) : List Directive → Option Handles
  | [] => some (declared ++ default)
  | .version major minor :: directives =>
    if !versioned && major = 1 && (minor = 1 || minor = 2) then ofDirectives? true declared directives
    else none
  | .handle name octets :: directives =>
    if (declared.lookup name).isSome then none
    else ofDirectives? versioned ((name, octets) :: declared) directives

end HtmlTemplate.Yaml
