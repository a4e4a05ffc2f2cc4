import HtmlTemplate.Text.Pattern

/-!
# Attributes

The parts of an attribute that are looked for inside a tag: an equals sign between blanks, a value in
either kind of quotes, and an attribute with a given name, which begins with the blank before it.
-/

namespace HtmlTemplate

namespace Text

/-- Reads an equals sign with the blanks around it. -/
def readEquals (t : Text) : Option (Text × Text) :=
  match t.dropWhile isBlank with
  | '=' :: rest => some (t.takeWhile isBlank ++ '=' :: rest.takeWhile isBlank, rest.dropWhile isBlank)
  | _ => none

/-- Reads the longest non-empty run of characters of a class. -/
def readRun (p : Char → Bool) (t : Text) : Option (Text × Text) :=
  match t.takeWhile p with
  | [] => none
  | run => some (run, t.dropWhile p)

def isQuote (c : Char) : Bool := c == '"' || c == '\''

theorem eq_append_of_readEquals {t equals rest : Text} (h : readEquals t = some (equals, rest)) :
    t = equals ++ rest := by
  unfold readEquals at h
  split at h
  · next r hr =>
    obtain ⟨rfl, rfl⟩ := Prod.mk.inj (Option.some.inj h)
    rw [List.append_assoc, List.cons_append, List.takeWhile_append_dropWhile, ← hr,
      List.takeWhile_append_dropWhile]
  · simp at h

theorem eq_append_of_readRun {p : Char → Bool} {t run rest : Text}
    (h : readRun p t = some (run, rest)) : t = run ++ rest ∧ run ≠ [] := by
  unfold readRun at h
  split at h
  · simp at h
  · next hne =>
    obtain ⟨rfl, rfl⟩ := Prod.mk.inj (Option.some.inj h)
    exact ⟨List.takeWhile_append_dropWhile.symm, hne⟩

theorem forall_mem_of_readRun {p : Char → Bool} {t run rest : Text}
    (h : readRun p t = some (run, rest)) : ∀ c ∈ run, p c = true := by
  unfold readRun at h
  split at h
  · simp at h
  · obtain ⟨rfl, -⟩ := Prod.mk.inj (Option.some.inj h)
    exact List.all_eq_true.1 List.all_takeWhile

end Text

/-- A value between two quotes of one kind. -/
structure Quoted where
  quote : Char
  value : Text
  deriving Repr, DecidableEq

namespace Quoted

/-- The value with its quotes. -/
def print (q : Quoted) : Text := q.quote :: (q.value ++ [q.quote])

/-- Reads a quoted value: it ends at the next quote of the kind that opened it. -/
def read : Text → Option (Quoted × Text)
  | [] => none
  | quote :: t =>
    if Text.isQuote quote then
      match t.dropWhile (· != quote) with
      | [] => none
      | _ :: rest => some (⟨quote, t.takeWhile (· != quote)⟩, rest)
    else none

theorem eq_append_of_read {t rest : Text} {q : Quoted} (h : read t = some (q, rest)) :
    t = q.print ++ rest := by
  cases t with
  | nil => simp [read] at h
  | cons quote t =>
    simp only [read] at h
    split at h
    · split at h
      · simp at h
      · next c r hr =>
        obtain ⟨rfl, rfl⟩ := Prod.mk.inj (Option.some.inj h)
        have hc : c = quote := by
          have := List.head?_dropWhile_not (· != quote) t
          rw [hr] at this
          simpa using this
        have ht : t = t.takeWhile (· != quote) ++ c :: r := by
          rw [← hr, List.takeWhile_append_dropWhile]
        simp only [print, List.cons_append, List.append_assoc, List.nil_append, ← hc]
        rw [hc] at ht ⊢
        rw [← ht]
    · simp at h

end Quoted

/-- An attribute: the blank before it, the equals sign with its blanks, and the quoted value. Its name
is known from where it was looked for. -/
structure Attribute where
  blank : Char
  equals : Text
  quoted : Quoted
  deriving Repr, DecidableEq

namespace Attribute

/-- The characters of an attribute called `name`. -/
def print (name : Text) (a : Attribute) : Text :=
  a.blank :: (name ++ a.equals ++ a.quoted.print)

/-- Reads an attribute called `name`, from the blank before it on. -/
def read (name : Text) : Text → Option (Attribute × Text)
  | [] => none
  | blank :: t =>
    if Text.isBlank blank then do
      let t ← Text.after? name t
      let (equals, t) ← Text.readEquals t
      let (quoted, rest) ← Quoted.read t
      return (⟨blank, equals, quoted⟩, rest)
    else none

theorem eq_append_of_read {name t rest : Text} {a : Attribute}
    (h : read name t = some (a, rest)) : t = a.print name ++ rest := by
  cases t with
  | nil => simp [read] at h
  | cons blank t =>
    simp only [read] at h
    split at h
    · simp only [Option.bind_eq_bind, Option.bind_eq_some_iff] at h
      obtain ⟨t₁, h₁, ⟨equals, t₂⟩, h₂, ⟨quoted, t₃⟩, h₃, he⟩ := h
      obtain ⟨rfl, rfl⟩ := Prod.mk.inj (Option.some.inj he)
      dsimp only at h₃ ⊢
      rw [Text.eq_append_of_after? h₁, Text.eq_append_of_readEquals h₂,
        Quoted.eq_append_of_read h₃]
      simp [print]
    · simp at h

def pattern (name : Text) : Pattern Attribute where
  read := read name
  print := print name
  eq_append := eq_append_of_read
  print_ne_nil := fun _ => List.cons_ne_nil _ _

end Attribute
end HtmlTemplate
