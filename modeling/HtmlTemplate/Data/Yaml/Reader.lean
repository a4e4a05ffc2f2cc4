import HtmlTemplate.Data.Yaml.Node
import HtmlTemplate.Data.Yaml.Plain

/-!
# Reading YAML

`Yaml.parse?` reads the one document of a YAML text as a value. Quoted scalars are strings, a tag of
the language itself decides the type of a scalar, and a key is the text of its scalar as written, the
last of equal keys giving the value. Collections nest at most 128 deep, and aliases may not be followed
beyond all proportion to the size of the document.
-/

namespace HtmlTemplate.Yaml

def coreTag (name : Text) : Octets := .ofText (coreBeginning ++ name)

/-- Whether a tag begins with an exclamation mark, as those that a document makes up do. -/
def isOwnTag (tag : Octets) : Bool := (Octets.ofText ['!']).isPrefixOf tag

/-- Whether a tag asks for a type that no value has. -/
def isForeign (tag : Octets) : Bool := isOwnTag tag && (String.fromUTF8? ⟨tag.toArray⟩).isSome

/-- The value of a scalar. A tag that a document makes up must not be a text. -/
def scalarValue? (plain : Bool) (tag : Option Octets) (t : Text) : Option Value :=
  match tag with
  | none => if plain then Plain.value? t else some (.string t)
  | some tag =>
    if isForeign tag then none
    else if tag = coreTag "bool".toList then (Plain.bool? t).map .bool
    else if tag = coreTag "int".toList then
      ((Plain.integer? t).filter Plain.fitsDoubleWord).bind Plain.ofInteger?
    else if tag = coreTag "float".toList then Plain.ofReal? t
    else if tag = coreTag "null".toList then if Plain.isNull t then some .null else none
    else if isOwnTag tag && plain then Plain.value? t
    else some (.string t)

namespace Node

/-- The size of a node as written: one for scalars and aliases, two for collections. -/
def size : Node → Nat
  | scalar _ _ _ => 1
  | sequence _ items => 2 + sizeItems items
  | mapping _ members => 2 + sizeMembers members
  | aliasFor _ => 1
where
  /-- The size of items. -/
  sizeItems : List Node → Nat
    | [] => 0
    | item :: items => item.size + sizeItems items
  /-- The size of members. -/
  sizeMembers : List (Node × Node) → Nat
    | [] => 0
    | (key, value) :: members => key.size + value.size + sizeMembers members

/-- The value of a node with collections at most `depth` deep. Following an alias uses up one of
`follow`; what is left comes back. -/
def value? (depth follow : Nat) : Node → Option (Value × Nat)
  | scalar plain tag t => (scalarValue? plain tag t).map fun value => (value, follow)
  | aliasFor target =>
    match follow with
    | 0 => none
    | follow + 1 => target.value? depth follow
  | sequence tag items =>
    match depth with
    | 0 => none
    | depth + 1 =>
      if tag.all (!isForeign ·) then
        (valueItems depth follow items).map fun (values, follow) => (.array values, follow)
      else none
  | mapping tag members =>
    match depth with
    | 0 => none
    | depth + 1 =>
      if tag.all (!isForeign ·) then
        (valueMembers depth follow [] members).map fun (members, follow) => (.object members, follow)
      else none
where
  /-- The values of items. -/
  valueItems (depth follow : Nat) : List Node → Option (List Value × Nat)
    | [] => some ([], follow)
    | item :: items => do
      let (value, follow) ← item.value? depth follow
      let (values, follow) ← valueItems depth follow items
      return (value :: values, follow)
  /-- The values of members, set one after another. -/
  valueMembers (depth follow : Nat) (set : Members) : List (Node × Node) → Option (Members × Nat)
    | [] => some (set, follow)
    | (key, value) :: members => do
      let name ← key.text?
      let (v, follow) ← value.value? depth follow
      valueMembers depth follow (set.set name v) members

end Node

def maxDepth : Nat := 128

/-- How often aliases may be followed for each unit of a document's size. -/
def followsPerUnit : Nat := 100

/-- Reads a whole text as one value. -/
def parse? (t : Text) : Option Value :=
  (Node.parse? t).bind fun node =>
    (node.value? maxDepth (followsPerUnit * node.size)).map Prod.fst

end HtmlTemplate.Yaml
