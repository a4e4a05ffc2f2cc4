import HtmlTemplate.Data.Number

/-!
# Values

The render data is a tree of values. A path of segments between points leads through it: a segment is
a key of an object or an index of an array. The members of an object keep the order in which their
keys first came.
-/

namespace HtmlTemplate

/-- A value of the render data. -/
inductive Value where
  | null
  | bool (b : Bool)
  | number (n : Number)
  | string (t : Text)
  | array (items : List Value)
  | object (members : List (Text × Value))

/-- What kind of value stands somewhere, or that none does. -/
inductive Kind where
  | undefined | null | boolean | number | string | array | object
  deriving Repr, DecidableEq

def Kind.name : Kind → String
  | undefined => "undefined"
  | null => "null"
  | boolean => "boolean"
  | number => "number"
  | string => "string"
  | array => "array"
  | object => "object"

/-- Members of an object, in the order of their keys. -/
abbrev Members := List (Text × Value)

namespace Members

/-- Sets a key: in its place if it is there, else at the end. -/
def set (members : Members) (key : Text) (value : Value) : Members :=
  match members with
  | [] => [(key, value)]
  | (k, v) :: rest => if k = key then (key, value) :: rest else (k, v) :: set rest key value

/-- Sets all members of `later`, in order. -/
def merge (members later : Members) : Members :=
  later.foldl (fun members member => members.set member.1 member.2) members

@[simp] theorem lookup_set (members : Members) (key : Text) (value : Value) (other : Text) :
    (members.set key value).lookup other =
      if other = key then some value else members.lookup other := by
  induction members with
  | nil =>
    by_cases h : other = key
    · simp [set, h]
    · simp [set, List.lookup_cons, beq_false_of_ne h, h]
  | cons member rest ih =>
    obtain ⟨k, v⟩ := member
    by_cases hk : k = key
    · subst hk
      by_cases h : other = k
      · simp [set, h]
      · simp [set, List.lookup_cons, beq_false_of_ne h, h]
    · by_cases h : other = k
      · subst h
        simp [set, hk]
      · simp [set, hk, List.lookup_cons, beq_false_of_ne h, ih]

end Members

/-! ## Paths -/

namespace DataPath

def segments (path : Text) : List Text := path.splitOn '.'

/-- The first segment of a path, and what follows the point after it. -/
def splitHead (path : Text) : Text × Text :=
  (path.takeWhile (· != '.'), (path.dropWhile (· != '.')).drop 1)

end DataPath

namespace Value

/-- The index that a segment denotes: a decimal numeral, perhaps with a plus sign. -/
def index? : Text → Option Nat
  | '+' :: t => Text.ofNumeral? t
  | t => Text.ofNumeral? t

/-- The value that a segment leads to. -/
def child? : Value → Text → Option Value
  | object members, segment => members.lookup segment
  | array items, segment => (index? segment).bind fun i => items[i]?
  | _, _ => none

/-- The value at a path. The empty path leads nowhere else. -/
def resolve? (root : Value) (path : Text) : Option Value :=
  if path.isEmpty then some root else (DataPath.segments path).foldlM child? root

def kind : Value → Kind
  | null => .null
  | bool _ => .boolean
  | number _ => .number
  | string _ => .string
  | array _ => .array
  | object _ => .object

/-- Whether a value counts as true. Arrays and objects do even when empty. -/
def isTruthy : Value → Bool
  | null => false
  | bool b => b
  | number n => !n.isZero
  | string t => !t.isEmpty
  | array _ => true
  | object _ => true

/-- The greatest number of items in an array of the value. -/
def widest : Value → Nat
  | array items => max items.length (widestItem items)
  | object members => widestMember members
  | _ => 0
where
  /-- The greatest width among items. -/
  widestItem : List Value → Nat
    | [] => 0
    | item :: items => max (widest item) (widestItem items)
  /-- The greatest width among members. -/
  widestMember : List (Text × Value) → Nat
    | [] => 0
    | (_, value) :: members => max (widest value) (widestMember members)

end Value

/-- The kind of what stands somewhere. -/
def Kind.of : Option Value → Kind
  | none => undefined
  | some value => value.kind

/-- Whether what stands somewhere counts as true; nothing does not. -/
def isTruthy (value : Option Value) : Bool := value.any Value.isTruthy

end HtmlTemplate
