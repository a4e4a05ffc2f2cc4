import HtmlTemplate.Data.Value
import HtmlTemplate.Error

/-!
# Keyed data

Data that a program hands over may have keys that are no texts. Whole numbers and booleans are written
out as keys of an object; a key with parts of its own has no text, and the data cannot be rendered.
-/

namespace HtmlTemplate

/-- A key of data handed over by a program. -/
inductive DataKey where
  | text (t : Text)
  | whole (n : Int)
  | bool (b : Bool)
  /-- An array or object. -/
  | composite (value : Value)

def DataKey.text? : DataKey → Option Text
  | text t => some t
  | whole n => some (Number.whole n).text
  | bool b => some (if b then "true".toList else "false".toList)
  | composite _ => none

namespace Value

/-- The members of keyed data in order, added to those set already. -/
def setKeyed (members : Members) : List (DataKey × Value) → Except Error Members
  | [] => .ok members
  | (key, value) :: rest =>
    match key.text? with
    | some name => setKeyed (members.set name value) rest
    | none => .error .keyNotText

def ofKeyed (entries : List (DataKey × Value)) : Except Error Value :=
  match setKeyed [] entries with
  | .ok members => .ok (.object members)
  | .error e => .error e

end Value
end HtmlTemplate
