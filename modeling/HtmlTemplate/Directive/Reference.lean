import HtmlTemplate.Directive.LoopExpr
import HtmlTemplate.Error
import HtmlTemplate.Placeholder

/-!
# References to loop items

The body of a loop refers to its item in placeholders, in guards and in the sources of inner loops.
`Reference.retarget` turns the references of a fragment into references to a binding. An inner loop that
declares the same item shadows it: only its source is retargeted and its body is copied as it is.
-/

namespace HtmlTemplate

/-- A path in a directive, with the characters that lead up to it. -/
structure Reference where
  lead : Text
  path : Text
  deriving Repr, DecidableEq

namespace Reference

/-- The characters of a reference. -/
def print (r : Reference) : Text := r.lead ++ r.path

/-! ## Reading -/

def readQuote : Text → Option (Text × Text)
  | [] => none
  | c :: t => if Text.isQuote c then some ([c], t) else none

/-- Reads an exclamation mark, if there is one, with the blanks after it. -/
def readNegation (t : Text) : Text × Text :=
  match t with
  | '!' :: t => ('!' :: t.takeWhile Text.isBlank, t.dropWhile Text.isBlank)
  | t => ([], t)

/-- Reads the path of a `*if` guard. -/
def readGuard (t : Text) : Option (Reference × Text) := do
  let name := DirectiveKind.guard.attributeName
  let t ← Text.after? name t
  let (equals, t) ← Text.readEquals t
  let (quote, t) ← readQuote t
  let blanks := t.takeWhile Text.isBlank
  let (negation, t) := readNegation (t.dropWhile Text.isBlank)
  let (path, rest) ← Text.readRun isPathChar t
  return (⟨name ++ equals ++ quote ++ blanks ++ negation, path⟩, rest)

/-- Reads the source path of a `*for` loop. -/
def readSource (t : Text) : Option (Reference × Text) := do
  let name := DirectiveKind.loop.attributeName
  let t ← Text.after? name t
  let (equals, t) ← Text.readEquals t
  let (quote, t) ← readQuote t
  let blanks := t.takeWhile Text.isBlank
  let (item, t) ← Text.readRun Text.isWord (t.dropWhile Text.isBlank)
  let (gap, t) ← Text.readRun Text.isBlank t
  let t ← Text.after? LoopExpr.keyword t
  let (space, t) ← Text.readRun Text.isBlank t
  let (path, rest) ← Text.readRun isPathChar t
  return (⟨name ++ equals ++ quote ++ blanks ++ item ++ gap ++ LoopExpr.keyword ++ space, path⟩, rest)

theorem eq_append_of_readQuote {t quote rest : Text} (h : readQuote t = some (quote, rest)) :
    t = quote ++ rest := by
  cases t with
  | nil => simp [readQuote] at h
  | cons c t =>
    simp only [readQuote] at h
    split at h
    · obtain ⟨rfl, rfl⟩ := Prod.mk.inj (Option.some.inj h)
      rfl
    · simp at h

theorem readNegation_append (t : Text) : (readNegation t).1 ++ (readNegation t).2 = t := by
  unfold readNegation
  split <;> simp

theorem eq_append_of_readGuard {t rest : Text} {r : Reference}
    (h : readGuard t = some (r, rest)) : t = r.print ++ rest := by
  simp only [readGuard, Option.bind_eq_bind, Option.bind_eq_some_iff] at h
  obtain ⟨t₁, h₁, ⟨equals, t₂⟩, h₂, ⟨quote, t₃⟩, h₃, ⟨path, t₄⟩, h₄, he⟩ := h
  obtain ⟨rfl, rfl⟩ := Prod.mk.inj (Option.some.inj he)
  dsimp only at h₃ h₄ ⊢
  have e₁ := readNegation_append (t₃.dropWhile Text.isBlank)
  rw [(Text.eq_append_of_readRun h₄).1] at e₁
  rw [Text.eq_append_of_after? h₁, Text.eq_append_of_readEquals h₂, eq_append_of_readQuote h₃]
  simp only [print, List.append_assoc]
  rw [e₁, List.takeWhile_append_dropWhile]

theorem eq_append_of_readSource {t rest : Text} {r : Reference}
    (h : readSource t = some (r, rest)) : t = r.print ++ rest := by
  simp only [readSource, Option.bind_eq_bind, Option.bind_eq_some_iff] at h
  obtain ⟨t₁, h₁, ⟨equals, t₂⟩, h₂, ⟨quote, t₃⟩, h₃, ⟨item, t₄⟩, h₄, ⟨gap, t₅⟩, h₅, t₆, h₆,
    ⟨space, t₇⟩, h₇, ⟨path, t₈⟩, h₈, he⟩ := h
  obtain ⟨rfl, rfl⟩ := Prod.mk.inj (Option.some.inj he)
  dsimp only at h₃ h₄ h₅ h₆ h₇ h₈ ⊢
  have e₁ := List.takeWhile_append_dropWhile (p := Text.isBlank) (l := t₃)
  rw [(Text.eq_append_of_readRun h₄).1, (Text.eq_append_of_readRun h₅).1,
    Text.eq_append_of_after? h₆, (Text.eq_append_of_readRun h₇).1,
    (Text.eq_append_of_readRun h₈).1] at e₁
  rw [Text.eq_append_of_after? h₁, Text.eq_append_of_readEquals h₂, eq_append_of_readQuote h₃]
  simp only [print, List.append_assoc]
  rw [e₁]

def guardPattern : Pattern Reference where
  read := readGuard
  print := print
  eq_append := eq_append_of_readGuard
  print_ne_nil := fun h => by
    simp only [readGuard, Option.bind_eq_bind, Option.bind_eq_some_iff] at h
    obtain ⟨t₁, h₁, ⟨equals, t₂⟩, h₂, ⟨quote, t₃⟩, h₃, ⟨path, t₄⟩, h₄, he⟩ := h
    obtain ⟨rfl, rfl⟩ := Prod.mk.inj (Option.some.inj he)
    simp [print, (Text.eq_append_of_readRun h₄).2]

def sourcePattern : Pattern Reference where
  read := readSource
  print := print
  eq_append := eq_append_of_readSource
  print_ne_nil := fun h => by
    simp only [readSource, Option.bind_eq_bind, Option.bind_eq_some_iff] at h
    obtain ⟨t₁, h₁, ⟨equals, t₂⟩, h₂, ⟨quote, t₃⟩, h₃, ⟨item, t₄⟩, h₄, ⟨gap, t₅⟩, h₅, t₆, h₆,
      ⟨space, t₇⟩, h₇, ⟨path, t₈⟩, h₈, he⟩ := h
    obtain ⟨rfl, rfl⟩ := Prod.mk.inj (Option.some.inj he)
    simp [print, (Text.eq_append_of_readRun h₈).2]

/-! ## Retargeting -/

/-- A path whose first segment is the item, with the binding in its place; none for other paths. -/
def rebase? (item binding path : Text) : Option Text :=
  match Text.after? item path with
  | some rest => if rest.isEmpty || rest.head? == some '.' then some (binding ++ rest) else none
  | none => none

def rebased (item binding : Text) (r : Reference) : Text :=
  r.lead ++ (rebase? item binding r.path).getD r.path

/-- A placeholder after retargeting. One that refers to the item loses its blanks. -/
def rebasedPlaceholder (item binding : Text) (p : Placeholder) : Text :=
  match rebase? item binding p.path with
  | some path => Placeholder.openBraces ++ path ++ Placeholder.closeBraces
  | none => p.print

def retargetSources (item binding t : Text) : Text := sourcePattern.replace (rebased item binding) t

/-- Retargets all references in a text. -/
def retargetAll (item binding t : Text) : Text :=
  retargetSources item binding <|
    guardPattern.replace (rebased item binding) <|
      Placeholder.pattern.replace (rebasedPlaceholder item binding) t

/-- The loop that a tag carries, if it declares `item`. -/
def shadowing? (item : Text) (tag : Tag) : Option Directive :=
  (Directive.ofTag? .loop tag).filter fun d =>
    (LoopExpr.parse? d.value).any fun expr => expr.item == item

/-- Retargets the references of scanned markup, leaving the bodies of shadowing loops alone. -/
def retargetMarkup (item binding : Text) (m : Markup) : Except Error Text :=
  match _hf : m.cutAtTag (shadowing? item) with
  | none => .ok (retargetAll item binding m.text)
  | some (front, d, rest) =>
    match _hs : Markup.cutSpan d.tag rest with
    | none => .error (.unterminated .loop d.value.trim d.tag.name)
    | some (inside, after) =>
      match retargetMarkup item binding after with
      | .error e => .error e
      | .ok t =>
        .ok (retargetAll item binding front.text ++ retargetSources item binding d.tag.print ++
          inside.text ++ t)
termination_by m.length
decreasing_by
  obtain ⟨tag, _, rfl⟩ := Markup.eq_append_of_cutAtTag _hf
  rw [Markup.eq_append_of_cutSpan _hs]
  simp only [List.length_append, List.length_cons]
  omega

/-- Retargets the references of a fragment to `item` into references to `binding`. -/
def retarget (item binding fragment : Text) : Except Error Text :=
  retargetMarkup item binding (Markup.ofText fragment)

end Reference
end HtmlTemplate
