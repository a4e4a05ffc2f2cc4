import HtmlTemplate.Data.Value

/-!
# Printing JSON

Values as compact JSON text: no blanks, members in order, and only quotes, backslashes and control
characters escaped.
-/

namespace HtmlTemplate.Json

def hexDigit (n : Nat) : Char := Nat.digitChar n

def escapeChar (c : Char) : Text :=
  if c == '"' then ['\\', '"']
  else if c == '\\' then ['\\', '\\']
  else if c == '\x08' then ['\\', 'b']
  else if c == '\x0c' then ['\\', 'f']
  else if c == '\n' then ['\\', 'n']
  else if c == '\r' then ['\\', 'r']
  else if c == '\t' then ['\\', 't']
  else if c.toNat < 0x20 then
    ['\\', 'u', '0', '0', hexDigit (c.toNat / 16), hexDigit (c.toNat % 16)]
  else [c]

def quote (t : Text) : Text := '"' :: (t.flatMap escapeChar ++ ['"'])

/-- A value as compact JSON. -/
def print : Value → Text
  | .null => ['n', 'u', 'l', 'l']
  | .bool b => if b then ['t', 'r', 'u', 'e'] else ['f', 'a', 'l', 's', 'e']
  | .number n => n.text
  | .string t => quote t
  | .array items => '[' :: (printItems items ++ [']'])
  | .object members => '\x7b' :: (printMembers members ++ ['\x7d'])
where
  /-- Items between commas. -/
  printItems : List Value → Text
    | [] => []
    | [item] => print item
    | item :: next :: items => print item ++ ',' :: printItems (next :: items)
  /-- Members between commas. -/
  printMembers : List (Text × Value) → Text
    | [] => []
    | [(key, value)] => quote key ++ ':' :: print value
    | (key, value) :: next :: members =>
      quote key ++ ':' :: print value ++ ',' :: printMembers (next :: members)

end HtmlTemplate.Json

namespace HtmlTemplate.Value

/-- The text of a value in a document: nothing for null, a string as it is, all else as JSON. -/
def text : Value → Text
  | .null => []
  | .string t => t
  | value => Json.print value

end HtmlTemplate.Value
