import HtmlTemplate.Data.Value
import HtmlTemplate.Markup.Attribute

/-!
# Scopes

A scope is the render data together with the bindings made for loop items. Bindings have synthetic
names. `Scope.bind` never picks a name that is bound, that resolves in the data, or that is reserved
because the template spells it, so a binding is reached only through a reference written for it.
-/

namespace HtmlTemplate

/-- The render data, the bindings in the order they were made, the reserved names, and the number of
the next synthetic name to try. -/
structure Scope where
  data : Value
  bindings : List (Text × Value)
  reserved : List Text
  next : Nat

namespace Scope

/-- The scope of data alone. -/
def ofData (data : Value) : Scope := ⟨data, [], [], 0⟩

/-! ## Synthetic names -/

/-- What every synthetic name begins with. -/
def stem : Text := ['_', '_', 't', 'e', 'm', 'p', 'l', '_', 'i', 't', 'e', 'r', '_']

/-- The synthetic name with a number. -/
def nameOf (n : Nat) : Text := stem ++ Text.numeral n

/-- Reads the digits of what looks like a synthetic name. -/
def readName (t : Text) : Option (Text × Text) := (Text.after? stem t).bind (Text.readRun Text.isDigit)

theorem eq_append_of_readName {t digits rest : Text} (h : readName t = some (digits, rest)) :
    t = stem ++ digits ++ rest := by
  obtain ⟨u, hu, hr⟩ := Option.bind_eq_some_iff.1 h
  rw [Text.eq_append_of_after? hu, (Text.eq_append_of_readRun hr).1, List.append_assoc]

/-- What looks like a synthetic name, as a pattern. -/
def namePattern : Pattern Text where
  read := readName
  print := (stem ++ ·)
  eq_append := eq_append_of_readName
  print_ne_nil := fun _ => by simp [stem]

/-- Reserves every name in `t` that looks synthetic. -/
def reserve (s : Scope) (t : Text) : Scope :=
  { s with reserved := s.reserved ++ (namePattern.lexemes t).map (stem ++ ·) }

/-! ## Binding -/

/-- Whether a name is bound, reserved, or resolves in the data. -/
def isTaken (s : Scope) (name : Text) : Bool :=
  (s.bindings.lookup name).isSome || s.reserved.contains name || (s.data.resolve? name).isSome

/-- The first number from `n` on, among the next `fuel`, whose name is free. -/
def freeFrom (s : Scope) : (fuel : Nat) → Nat → Nat
  | 0, n => n
  | fuel + 1, n => if s.isTaken (nameOf n) then freeFrom s fuel (n + 1) else n

/-- A number of names at least as great as that of the names taken. -/
def takenBound (s : Scope) : Nat :=
  s.bindings.length + s.reserved.length +
    match s.data with
    | .object members => members.length
    | _ => 0

/-- The first free number. Of more names than are taken, one is free. -/
def free (s : Scope) : Nat := s.freeFrom (s.takenBound + 1) s.next

/-- Binds a value to a new name. -/
def bind (s : Scope) (value : Value) : Text × Scope :=
  (nameOf s.free,
    { s with bindings := s.bindings ++ [(nameOf s.free, value)], next := s.free + 1 })

/-! ## Looking up -/

/-- The value at a path: bindings come first, and the empty path leads nowhere. -/
def lookup? (s : Scope) (path : Text) : Option Value :=
  if path.isEmpty then none
  else
    match s.bindings.lookup (DataPath.splitHead path).1 with
    | some bound => bound.resolve? (DataPath.splitHead path).2
    | none => s.data.resolve? path

end Scope
end HtmlTemplate
