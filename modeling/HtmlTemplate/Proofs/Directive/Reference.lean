import HtmlTemplate.Directive.Reference
import HtmlTemplate.Proofs.Text.Basic
import HtmlTemplate.Proofs.Text.Pattern
import Mathlib

/-!
# References and the characters around them

Placeholders, guards and loop sources are read up to characters that cannot belong to them. At such a
character a text can be cut, and its references retargeted part by part.
-/

namespace HtmlTemplate

namespace Text

variable {c : Char}

theorem readRun_stopsAt {p : Char → Bool} (hc : p c = false) : StopsAt c (readRun p) := by
  intro s t
  unfold readRun
  rw [takeWhile_append_cons hc, dropWhile_append_cons hc]
  split <;> rfl

theorem readEquals_stopsAt (hblank : isBlank c = false) (heq : c ≠ '=') : StopsAt c readEquals := by
  intro s t
  unfold readEquals
  rw [takeWhile_append_cons hblank, dropWhile_append_cons hblank]
  cases s.dropWhile isBlank with
  | nil => simp [heq]
  | cons d u =>
    by_cases hd : d = '='
    · subst hd
      simp [takeWhile_append_cons hblank, dropWhile_append_cons hblank]
    · simp [hd]

theorem readRun_append {p : Char → Bool} {u : Text} (hne : u ≠ []) (hu : ∀ c ∈ u, p c = true) {c : Char}
    (hc : p c = false) (t : Text) : readRun p (u ++ c :: t) = some (u, c :: t) := by
  rw [readRun, takeWhile_append_cons hc, dropWhile_append_cons hc, List.takeWhile_eq_self_iff.2 hu,
    List.dropWhile_eq_nil_iff.2 hu]
  cases u with
  | nil => exact absurd rfl hne
  | cons d u => rfl

theorem readRun_blanks {b w : Text} (hb : ∀ c ∈ b, isBlank c = true) (hne : b ≠ []) (hw : w ≠ [])
    (hsolid : ∀ c ∈ w, isBlank c = false) (t : Text) : readRun isBlank (b ++ (w ++ t)) = some (b, w ++ t) := by
  obtain ⟨c, r, rfl⟩ := List.exists_cons_of_ne_nil hw
  exact readRun_append hne hb (hsolid c (by simp)) (r ++ t)

theorem readRun_append_blanks {p : Char → Bool} (hp : ∀ c, isBlank c = true → p c = false) (t : Text) {b : Text}
    (hb : ∀ c ∈ b, isBlank c = true) : readRun p (t ++ b) = (readRun p t).map fun (run, rest) => (run, rest ++ b) := by
  cases b with
  | nil => simp
  | cons c b => exact readRun_stopsAt (hp c (hb c (by simp))) t b

theorem readRun_isBlank_eq_none {p : Char → Bool} {w t run rest : Text} (hsolid : ∀ c ∈ w, isBlank c = false)
    (hw : ¬ w.all p = true) (h : readRun p (w ++ t) = some (run, rest)) : readRun isBlank rest = none := by
  obtain ⟨d, y, hdy⟩ : ∃ d y, w.dropWhile p = d :: y := by
    rw [← List.ne_nil_iff_exists_cons]
    exact fun hnil => hw (List.all_eq_true.2 (List.dropWhile_eq_nil_iff.1 hnil))
  have hblank : isBlank d = false := hsolid d ((List.dropWhile_suffix p).subset (by rw [hdy]; simp))
  have hrest : rest = d :: (y ++ t) := by
    unfold readRun at h
    split at h
    · simp at h
    · rw [← (Prod.mk.inj (Option.some.inj h)).2, List.dropWhile_append, hdy]
      rfl
  rw [hrest, readRun, List.takeWhile_cons_of_neg (by simp [hblank])]

end Text

/-! ## Placeholders -/

theorem Placeholder.read_stopsAt {c : Char} (hblank : Text.isBlank c = false)
    (hpath : isPathChar c = false) (hopen : c ∉ openBraces) (hclose : c ∉ closeBraces) :
    Text.StopsAt c read := by
  intro s t
  unfold read
  rw [Text.after?_append_cons hopen]
  cases Text.after? openBraces s with
  | none => rfl
  | some s₁ =>
    simp only [Option.map_some, Option.bind_eq_bind, Option.bind_some,
      Text.takeWhile_append_cons hblank, Text.dropWhile_append_cons hblank,
      Text.readRun_stopsAt hpath _ _]
    cases Text.readRun isPathChar (s₁.dropWhile Text.isBlank) with
    | none => rfl
    | some found =>
      simp only [Option.map_some, Option.bind_some, Text.takeWhile_append_cons hblank,
        Text.dropWhile_append_cons hblank, Text.after?_append_cons hclose]
      cases Text.after? closeBraces (found.2.dropWhile Text.isBlank) <;> rfl

theorem Placeholder.pattern_opensWith : pattern.OpensWith (· == '\x7b') := fun t p rest h => by
  rw [eq_append_of_read h]
  rfl

theorem Placeholder.writes_plain (f : Placeholder → Text) {s : Text} (hs : '\x7b' ∉ s) :
    Text.Writes (pattern.replace f) s s :=
  pattern_opensWith.writes f fun c hc => by simpa using fun he : c = '\x7b' => hs (he ▸ hc)

/-! ## Guards and loop sources -/

namespace Reference

variable {c : Char}

theorem readQuote_cons {quote : Char} (hquote : Text.isQuote quote = true) (t : Text) :
    readQuote (quote :: t) = some ([quote], t) := by
  rw [readQuote, if_pos hquote]

theorem readQuote_stopsAt (hc : Text.isQuote c = false) : Text.StopsAt c readQuote := by
  intro s t
  cases s with
  | nil => simp [readQuote, hc]
  | cons d s =>
    simp only [List.cons_append, readQuote]
    split <;> rfl

theorem readNegation_append_cons (hblank : Text.isBlank c = false) (hc : c ≠ '!') (s t : Text) :
    readNegation (s ++ c :: t) = ((readNegation s).1, (readNegation s).2 ++ c :: t) := by
  cases s with
  | nil => simp [readNegation, hc]
  | cons d s =>
    by_cases hd : d = '!'
    · subst hd
      simp [readNegation, Text.takeWhile_append_cons hblank, Text.dropWhile_append_cons hblank]
    · simp [readNegation, hd]

/-! No character of a reference but its first one is an angle bracket or a star. -/

theorem readGuard_append_cons (hc : c = '<' ∨ c = '>' ∨ c = '*') {s : Text}
    (hname : ∀ t, Text.after? DirectiveKind.guard.attributeName (s ++ c :: t) =
      (Text.after? DirectiveKind.guard.attributeName s).map (· ++ c :: t)) (t : Text) :
    readGuard (s ++ c :: t) = (readGuard s).map fun (r, rest) => (r, rest ++ c :: t) := by
  have hblank : Text.isBlank c = false := by rcases hc with rfl | rfl | rfl <;> decide
  have hequals : c ≠ '=' := by rcases hc with rfl | rfl | rfl <;> decide
  have hquote : Text.isQuote c = false := by rcases hc with rfl | rfl | rfl <;> decide
  have hnot : c ≠ '!' := by rcases hc with rfl | rfl | rfl <;> decide
  have hpath : isPathChar c = false := by rcases hc with rfl | rfl | rfl <;> decide
  unfold readGuard
  simp only [Option.bind_eq_bind, hname]
  cases Text.after? DirectiveKind.guard.attributeName s with
  | none => rfl
  | some s₁ =>
    simp only [Option.map_some, Option.bind_some, Text.readEquals_stopsAt hblank hequals _ _]
    cases Text.readEquals s₁ with
    | none => rfl
    | some found =>
      simp only [Option.map_some, Option.bind_some, readQuote_stopsAt hquote _ _]
      cases readQuote found.2 with
      | none => rfl
      | some found =>
        simp only [Option.map_some, Option.bind_some, Text.takeWhile_append_cons hblank,
          Text.dropWhile_append_cons hblank, readNegation_append_cons hblank hnot,
          Text.readRun_stopsAt hpath _ _]
        cases Text.readRun isPathChar (readNegation (found.2.dropWhile Text.isBlank)).2 <;> rfl

theorem readGuard_stopsAt (hc : c = '<' ∨ c = '>') : Text.StopsAt c readGuard := by
  have hname : c ∉ DirectiveKind.guard.attributeName := by rcases hc with rfl | rfl <;> decide
  intro s t
  apply readGuard_append_cons
  · tauto
  · exact Text.after?_append_cons hname s

theorem readGuard_stopsBefore : Text.StopsBefore '*' readGuard := by
  intro d s t
  apply readGuard_append_cons
  · tauto
  · exact Text.after?_cons_append_cons (by decide) d s

theorem readSource_append_cons (hc : c = '<' ∨ c = '>' ∨ c = '*') {s : Text}
    (hname : ∀ t, Text.after? DirectiveKind.loop.attributeName (s ++ c :: t) =
      (Text.after? DirectiveKind.loop.attributeName s).map (· ++ c :: t)) (t : Text) :
    readSource (s ++ c :: t) = (readSource s).map fun (r, rest) => (r, rest ++ c :: t) := by
  have hblank : Text.isBlank c = false := by rcases hc with rfl | rfl | rfl <;> decide
  have hequals : c ≠ '=' := by rcases hc with rfl | rfl | rfl <;> decide
  have hquote : Text.isQuote c = false := by rcases hc with rfl | rfl | rfl <;> decide
  have hword : Text.isWord c = false := by rcases hc with rfl | rfl | rfl <;> decide
  have hkeyword : c ∉ LoopExpr.keyword := by rcases hc with rfl | rfl | rfl <;> decide
  have hpath : isPathChar c = false := by rcases hc with rfl | rfl | rfl <;> decide
  unfold readSource
  simp only [Option.bind_eq_bind, hname]
  cases Text.after? DirectiveKind.loop.attributeName s with
  | none => rfl
  | some s₁ =>
    simp only [Option.map_some, Option.bind_some, Text.readEquals_stopsAt hblank hequals _ _]
    cases Text.readEquals s₁ with
    | none => rfl
    | some found =>
      simp only [Option.map_some, Option.bind_some, readQuote_stopsAt hquote _ _]
      cases readQuote found.2 with
      | none => rfl
      | some found =>
        simp only [Option.map_some, Option.bind_some, Text.takeWhile_append_cons hblank,
          Text.dropWhile_append_cons hblank, Text.readRun_stopsAt hword _ _]
        cases Text.readRun Text.isWord (found.2.dropWhile Text.isBlank) with
        | none => rfl
        | some found =>
          simp only [Option.map_some, Option.bind_some, Text.readRun_stopsAt hblank _ _]
          cases Text.readRun Text.isBlank found.2 with
          | none => rfl
          | some found =>
            simp only [Option.map_some, Option.bind_some, Text.after?_append_cons hkeyword]
            cases Text.after? LoopExpr.keyword found.2 with
            | none => rfl
            | some s₂ =>
              simp only [Option.map_some, Option.bind_some, Text.readRun_stopsAt hblank _ _]
              cases Text.readRun Text.isBlank s₂ with
              | none => rfl
              | some found =>
                simp only [Option.map_some, Option.bind_some, Text.readRun_stopsAt hpath _ _]
                cases Text.readRun isPathChar found.2 <;> rfl

theorem readSource_stopsAt (hc : c = '<' ∨ c = '>') : Text.StopsAt c readSource := by
  have hname : c ∉ DirectiveKind.loop.attributeName := by rcases hc with rfl | rfl <;> decide
  intro s t
  apply readSource_append_cons
  · tauto
  · exact Text.after?_append_cons hname s

theorem readSource_stopsBefore : Text.StopsBefore '*' readSource := by
  intro d s t
  apply readSource_append_cons
  · tauto
  · exact Text.after?_cons_append_cons (by decide) d s

end Reference
end HtmlTemplate
