import HtmlTemplate.Scope
import HtmlTemplate.Data.Json.Printer

/-!
# Placeholders

A placeholder names a path between double braces. Interpolation puts the escaped text of the value at
the path in its place, and nothing where there is no value.
-/

namespace HtmlTemplate

/-! ## Escaping -/

namespace Escape

def char (c : Char) : Text :=
  if c == '&' then "&amp;".toList
  else if c == '<' then "&lt;".toList
  else if c == '>' then "&gt;".toList
  else if c == '"' then "&quot;".toList
  else if c == '\'' then "&#39;".toList
  else [c]

/-- The characters that are not written as they are. -/
def special : Text := ['&', '<', '>', '"', '\'']

/-- A text as it is written in a document, so that it is neither markup nor the end of a value. A text
without special characters is not gone through again. -/
def text (t : Text) : Text := if t.any special.contains then t.flatMap char else t

theorem char_of_not_mem {c : Char} (h : c ∉ special) : char c = [c] := by
  simp only [special, List.mem_cons, List.not_mem_nil, not_or] at h
  simp [char, h]

theorem text_eq_flatMap (t : Text) : text t = t.flatMap char := by
  unfold text
  split
  · rfl
  · next h =>
    have hplain : ∀ c ∈ t, char c = [c] := fun c hc => char_of_not_mem fun hmem =>
      h (List.any_eq_true.2 ⟨c, hc, List.contains_iff_mem.2 hmem⟩)
    rw [List.flatMap_def, List.map_congr_left hplain, ← List.flatMap_def, List.flatMap_singleton']

@[simp] theorem text_append (s t : Text) : text (s ++ t) = text s ++ text t := by
  simp [text_eq_flatMap]

end Escape

/-! ## Placeholders -/

/-- Whether a character may stand in a path of the template. -/
def isPathChar (c : Char) : Bool := Text.isWord c || c == '.'

/-- A path between double braces, with the blanks around it. -/
structure Placeholder where
  before : Text
  path : Text
  after : Text
  deriving Repr, DecidableEq

namespace Placeholder

def openBraces : Text := ['\x7b', '\x7b']

def closeBraces : Text := ['\x7d', '\x7d']

/-- The characters of a placeholder. -/
def print (p : Placeholder) : Text := openBraces ++ p.before ++ p.path ++ p.after ++ closeBraces

/-- Reads a placeholder. -/
def read (t : Text) : Option (Placeholder × Text) := do
  let t ← Text.after? openBraces t
  let before := t.takeWhile Text.isBlank
  let (path, t) ← Text.readRun isPathChar (t.dropWhile Text.isBlank)
  let after := t.takeWhile Text.isBlank
  let rest ← Text.after? closeBraces (t.dropWhile Text.isBlank)
  return (⟨before, path, after⟩, rest)

theorem eq_append_of_read {t rest : Text} {p : Placeholder} (h : read t = some (p, rest)) :
    t = p.print ++ rest := by
  simp only [read, Option.bind_eq_bind, Option.bind_eq_some_iff] at h
  obtain ⟨t₁, h₁, ⟨path, t₂⟩, h₂, t₃, h₃, he⟩ := h
  obtain ⟨rfl, rfl⟩ := Prod.mk.inj (Option.some.inj he)
  dsimp only at h₃ ⊢
  have e₁ := List.takeWhile_append_dropWhile (p := Text.isBlank) (l := t₁)
  have e₂ := List.takeWhile_append_dropWhile (p := Text.isBlank) (l := t₂)
  rw [(Text.eq_append_of_readRun h₂).1] at e₁
  rw [Text.eq_append_of_after? h₃] at e₂
  rw [Text.eq_append_of_after? h₁]
  simp only [print, List.append_assoc]
  rw [e₂, e₁]

def pattern : Pattern Placeholder where
  read := read
  print := print
  eq_append := eq_append_of_read
  print_ne_nil := fun _ => by simp [print, openBraces]

/-- What a placeholder becomes in a scope. -/
def value (s : Scope) (p : Placeholder) : Text :=
  match s.lookup? p.path with
  | some value => Escape.text value.text
  | none => []

/-- Puts values in the place of all placeholders of a text. -/
def interpolate (s : Scope) (t : Text) : Text := pattern.replace (value s) t

end Placeholder
end HtmlTemplate
