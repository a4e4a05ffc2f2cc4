import HtmlTemplate.Comment
import HtmlTemplate.Error

/-!
# Includes

An include marker `<include src="…"/>`, self-closed or followed by `</include>`, is replaced by the
content of the source it names. Markers are found in one scan, so those of included content stay.
-/

namespace HtmlTemplate

/-- An include marker: what stands between the element name and `src`, the equals sign, the name of the
source in quotes, and all that follows up to the end of the marker. -/
structure IncludeMarker where
  gap : Text
  equals : Text
  quoted : Quoted
  closing : Text
  deriving Repr, DecidableEq

namespace IncludeMarker

/-- What a marker begins with. -/
def opening : Text := ['<', 'i', 'n', 'c', 'l', 'u', 'd', 'e']

/-- The name of the attribute that names the source. -/
def attributeName : Text := ['s', 'r', 'c']

def closingTag : Text := ['<', '/', 'i', 'n', 'c', 'l', 'u', 'd', 'e']

/-- The characters of a marker. -/
def print (m : IncludeMarker) : Text :=
  opening ++ m.gap ++ attributeName ++ m.equals ++ m.quoted.print ++ m.closing

def source (m : IncludeMarker) : Text := m.quoted.value.trim

/-! ## Reading -/

/-- Reads an explicit closing tag with the blanks before it. -/
def readClosingTag (t : Text) : Option (Text × Text) := do
  let before := t.takeWhile Text.isBlank
  let t ← Text.after? closingTag (t.dropWhile Text.isBlank)
  let after := t.takeWhile Text.isBlank
  let rest ← Text.after? ['>'] (t.dropWhile Text.isBlank)
  return (before ++ closingTag ++ after ++ ['>'], rest)

/-- Reads the end of a marker after its source: up to the first `>`, which follows a slash or is
followed by a closing tag. -/
def readClosing (t : Text) : Option (Text × Text) :=
  let front := t.takeWhile (· != '>')
  match t.dropWhile (· != '>') with
  | '>' :: rest =>
    if front.getLast? = some '/' then some (front ++ ['>'], rest)
    else (readClosingTag rest).map fun (closing, rest) => (front ++ '>' :: closing, rest)
  | _ => none

/-- Reads the attribute that names the source, and the end of the marker. -/
def readSource (t : Text) : Option ((Text × Quoted × Text) × Text) := do
  let t ← Text.after? attributeName t
  let (equals, t) ← Text.readEquals t
  let (quoted, t) ← Quoted.read t
  let (closing, rest) ← readClosing t
  return ((equals, quoted, closing), rest)

/-- Reads the rest of a marker whose last character so far is `last`: the source is named by the first
`src` at a word boundary, before any `>`, that leads to an end of the marker. -/
def readFrom (last : Char) : Text → Option (IncludeMarker × Text)
  | [] => none
  | c :: t =>
    match if Text.isWord last then none else readSource (c :: t) with
    | some ((equals, quoted, closing), rest) => some (⟨[], equals, quoted, closing⟩, rest)
    | none =>
      if c = '>' then none
      else (readFrom c t).map fun (m, rest) => ({ m with gap := c :: m.gap }, rest)

/-- Reads a marker. -/
def read (t : Text) : Option (IncludeMarker × Text) := do
  let t ← Text.after? opening t
  if t.head?.any Text.isWord then none else readFrom 'e' t

theorem eq_append_of_readClosingTag {t closing rest : Text}
    (h : readClosingTag t = some (closing, rest)) : t = closing ++ rest := by
  simp only [readClosingTag, Option.bind_eq_bind, Option.bind_eq_some_iff] at h
  obtain ⟨t₁, h₁, t₂, h₂, he⟩ := h
  obtain ⟨rfl, rfl⟩ := Prod.mk.inj (Option.some.inj he)
  have e₁ := List.takeWhile_append_dropWhile (p := Text.isBlank) (l := t)
  have e₂ := List.takeWhile_append_dropWhile (p := Text.isBlank) (l := t₁)
  rw [Text.eq_append_of_after? h₂] at e₂
  rw [Text.eq_append_of_after? h₁] at e₁
  simp only [List.append_assoc]
  rw [e₂, e₁]

theorem eq_append_of_readClosing {t closing rest : Text}
    (h : readClosing t = some (closing, rest)) : t = closing ++ rest := by
  unfold readClosing at h
  dsimp only at h
  split at h
  · next r hr =>
    have e := List.takeWhile_append_dropWhile (p := (· != '>')) (l := t)
    rw [hr] at e
    split at h
    · obtain ⟨rfl, rfl⟩ := Prod.mk.inj (Option.some.inj h)
      simpa using e.symm
    · simp only [Option.map_eq_some_iff, Prod.exists, Prod.mk.injEq] at h
      obtain ⟨c, r', hc, rfl, rfl⟩ := h
      rw [eq_append_of_readClosingTag hc] at e
      simpa using e.symm
  · simp at h

theorem eq_append_of_readSource {t equals closing rest : Text} {quoted : Quoted}
    (h : readSource t = some ((equals, quoted, closing), rest)) :
    t = attributeName ++ equals ++ quoted.print ++ closing ++ rest := by
  simp only [readSource, Option.bind_eq_bind, Option.bind_eq_some_iff] at h
  obtain ⟨t₁, h₁, ⟨equals', t₂⟩, h₂, ⟨quoted', t₃⟩, h₃, ⟨closing', t₄⟩, h₄, he⟩ := h
  simp only [Option.pure_def, Option.some.injEq, Prod.mk.injEq] at he
  obtain ⟨⟨rfl, rfl, rfl⟩, rfl⟩ := he
  dsimp only at h₃ h₄ ⊢
  rw [Text.eq_append_of_after? h₁, Text.eq_append_of_readEquals h₂, Quoted.eq_append_of_read h₃,
    eq_append_of_readClosing h₄]
  simp

theorem eq_append_of_readFrom {last : Char} {t rest : Text} {m : IncludeMarker}
    (h : readFrom last t = some (m, rest)) :
    t = m.gap ++ attributeName ++ m.equals ++ m.quoted.print ++ m.closing ++ rest := by
  induction t generalizing last m with
  | nil => simp [readFrom] at h
  | cons c t ih =>
    unfold readFrom at h
    split at h
    · next hs =>
      obtain ⟨rfl, rfl⟩ := Prod.mk.inj (Option.some.inj h)
      split at hs
      · simp at hs
      · simpa using eq_append_of_readSource hs
    · split at h
      · simp at h
      · simp only [Option.map_eq_some_iff, Prod.exists, Prod.mk.injEq] at h
        obtain ⟨m', r, hm, rfl, rfl⟩ := h
        simpa using ih hm

theorem eq_append_of_read {t rest : Text} {m : IncludeMarker} (h : read t = some (m, rest)) :
    t = m.print ++ rest := by
  simp only [read, Option.bind_eq_bind, Option.bind_eq_some_iff] at h
  obtain ⟨t₁, h₁, h₂⟩ := h
  split at h₂
  · simp at h₂
  · rw [Text.eq_append_of_after? h₁, eq_append_of_readFrom h₂]
    simp [print]

def pattern : Pattern IncludeMarker where
  read := read
  print := print
  eq_append := eq_append_of_read
  print_ne_nil := fun _ => by simp [print, opening]

/-! ## Resolving -/

/-- Puts the guarded contents of sources in the place of markers among scanned pieces. -/
def resolvePieces (load : Text → Except LoadFailure Text) :
    List (Piece IncludeMarker) → Comment.Table → Except Error (Text × Comment.Table)
  | [], table => .ok ([], table)
  | .char c :: pieces, table =>
    match resolvePieces load pieces table with
    | .error e => .error e
    | .ok (t, table) => .ok (c :: t, table)
  | .lexeme m :: pieces, table =>
    match load m.source with
    | .error failure => .error (.ofInclude m.source failure)
    | .ok content =>
      let (guarded, table) := table.guard content
      match resolvePieces load pieces table with
      | .error e => .error e
      | .ok (t, table) => .ok (guarded ++ t, table)

/-- Puts the guarded contents of sources in the place of all markers of a text. -/
def resolve (load : Text → Except LoadFailure Text) (t : Text) (table : Comment.Table) :
    Except Error (Text × Comment.Table) :=
  resolvePieces load (pattern.pieces t) table

end IncludeMarker
end HtmlTemplate
