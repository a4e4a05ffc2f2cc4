import HtmlTemplate.Markup.Attribute

/-!
# Comments

While a text is worked on its comments are out of the way: each is kept in a table, and a marker with
its index stands in its place. The markers are exchanged back at the end.
-/

namespace HtmlTemplate

/-- A comment, by what stands between its delimiters. -/
structure Comment where
  body : Text
  deriving Repr, DecidableEq

namespace Comment

/-- What a comment begins with. -/
def opening : Text := ['<', '!', '-', '-']

/-- What a comment ends with. -/
def ending : Text := ['-', '-', '>']

/-- The characters of a comment. -/
def print (c : Comment) : Text := opening ++ c.body ++ ending

/-- Reads a comment: it ends at the first ending after its opening. -/
def read (t : Text) : Option (Comment × Text) := do
  let t ← Text.after? opening t
  let (body, rest) ← Text.cut? ending t
  return (⟨body⟩, rest)

theorem eq_append_of_read {t rest : Text} {c : Comment} (h : read t = some (c, rest)) :
    t = c.print ++ rest := by
  simp only [read, Option.bind_eq_bind, Option.bind_eq_some_iff] at h
  obtain ⟨t₁, h₁, ⟨body, t₂⟩, h₂, he⟩ := h
  obtain ⟨rfl, rfl⟩ := Prod.mk.inj (Option.some.inj he)
  rw [Text.eq_append_of_after? h₁, Text.eq_append_of_cut? h₂]
  simp [print]

def pattern : Pattern Comment where
  read := read
  print := print
  eq_append := eq_append_of_read
  print_ne_nil := fun _ => by simp [print, opening]

/-! ## Markers -/

def markerStem : Text :=
  opening ++ ['t', 'e', 'm', 'p', 'l', '-', 'c', 'o', 'm', 'm', 'e', 'n', 't', ':']

def printMarker (digits : Text) : Text := markerStem ++ digits ++ ending

def marker (index : Nat) : Text := printMarker (Text.numeral index)

def readMarker (t : Text) : Option (Text × Text) := do
  let t ← Text.after? markerStem t
  let (digits, t) ← Text.readRun Text.isDigit t
  let rest ← Text.after? ending t
  return (digits, rest)

theorem eq_append_of_readMarker {t rest digits : Text} (h : readMarker t = some (digits, rest)) :
    t = printMarker digits ++ rest := by
  simp only [readMarker, Option.bind_eq_bind, Option.bind_eq_some_iff] at h
  obtain ⟨t₁, h₁, ⟨digits', t₂⟩, h₂, t₃, h₃, he⟩ := h
  obtain ⟨rfl, rfl⟩ := Prod.mk.inj (Option.some.inj he)
  dsimp only at h₃
  rw [Text.eq_append_of_after? h₁, (Text.eq_append_of_readRun h₂).1, Text.eq_append_of_after? h₃]
  simp [printMarker]

def markerPattern : Pattern Text where
  read := readMarker
  print := printMarker
  eq_append := eq_append_of_readMarker
  print_ne_nil := fun _ => by simp [printMarker, markerStem, opening]

/-! ## Guarding and restoring -/

/-- The comments met so far, in order. -/
abbrev Table := List Comment

namespace Table

/-- Puts markers in the place of the comments among scanned pieces, with the table that they extend. -/
def guardPieces : List (Piece Comment) → Table → Text × Table
  | [], table => ([], table)
  | .char c :: pieces, table =>
    let (t, table) := guardPieces pieces table
    (c :: t, table)
  | .lexeme comment :: pieces, table =>
    let (t, later) := guardPieces pieces (table ++ [comment])
    (marker table.length ++ t, later)

/-- Puts markers in the place of all comments of a text. -/
def guard (table : Table) (t : Text) : Text × Table := guardPieces (pattern.pieces t) table

/-- Guards texts one after another. -/
def guardAll (table : Table) : List Text → List Text × Table
  | [] => ([], table)
  | t :: texts =>
    let (guarded, table) := table.guard t
    let (rest, table) := guardAll table texts
    (guarded :: rest, table)

/-- What stands for a marker: its comment, or the marker itself where the table has none. -/
def restoreMarker (table : Table) (digits : Text) : Text :=
  match (Text.ofNumeral? digits).bind fun index => table[index]? with
  | some comment => comment.print
  | none => printMarker digits

/-- Puts comments back in the place of their markers. -/
def restore (table : Table) (t : Text) : Text := markerPattern.replace table.restoreMarker t

end Table

/-- Guards a text with a fresh table. -/
def extract (t : Text) : Text × Table := Table.guard [] t

end Comment
end HtmlTemplate
