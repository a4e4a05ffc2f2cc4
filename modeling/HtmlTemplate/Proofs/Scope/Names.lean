import HtmlTemplate.Proofs.Comment.Digits
import HtmlTemplate.Proofs.Scope

/-!
# Names that texts spell

A text spells a name that stands in it as a whole word. A synthetic name that a text spells is among the
names that the text reserves (`Scope.mem_namesIn_of_spells`). A new binding is found under its own name and
leaves what is found under every other name as it was.
-/

namespace HtmlTemplate

/-! ## Looking up a new binding -/

namespace Scope

variable {s : Scope}

theorem lookup_bind {name : Text} {v : Value} (h : name ≠ (s.bind v).1) :
    (s.bind v).2.bindings.lookup name = s.bindings.lookup name := by
  show (s.bindings ++ [((s.bind v).1, v)]).lookup name = _
  rw [List.lookup_append, List.lookup_cons, beq_false_of_ne h]
  simp

theorem lookup_bind_self (s : Scope) (v : Value) : (s.bind v).2.bindings.lookup (s.bind v).1 = some v := by
  have hfree : s.bindings.lookup (s.bind v).1 = none := by
    have := s.isTaken_free
    simp only [isTaken, Bool.or_eq_false_iff, Option.isSome_eq_false_iff, Option.isNone_iff_eq_none] at this
    exact this.1.1
  show (s.bindings ++ [((s.bind v).1, v)]).lookup (s.bind v).1 = _
  rw [List.lookup_append, hfree]
  simp

end Scope

/-! ## Whole words of a text -/

/-- A name stands in the text as a whole word. -/
def Text.Spells (t name : Text) : Prop :=
  ∃ u c d v, t = u ++ c :: (name ++ d :: v) ∧ isWord c = false ∧ isWord d = false

namespace Text.Spells

variable {s t name : Text}

theorem append_left (h : Spells t name) (s : Text) : Spells (s ++ t) name := by
  obtain ⟨u, c, d, v, rfl, hc, hd⟩ := h
  exact ⟨s ++ u, c, d, v, by simp, hc, hd⟩

theorem append_right (h : Spells s name) (t : Text) : Spells (s ++ t) name := by
  obtain ⟨u, c, d, v, rfl, hc, hd⟩ := h
  exact ⟨u, c, d, v ++ t, by simp, hc, hd⟩

theorem flatMap {α : Type} {l : List α} {f : α → Text} {a : α} (ha : a ∈ l) (h : Spells (f a) name) :
    Spells (l.flatMap f) name := by
  obtain ⟨l₁, l₂, rfl⟩ := List.append_of_mem ha
  rw [List.flatMap_append, List.flatMap_cons]
  exact (h.append_right _).append_left _

end Text.Spells

theorem Text.not_isWord_of_isQuote {c : Char} (h : isQuote c = true) : isWord c = false := by
  rcases isQuote_iff.1 h with rfl | rfl <;> decide

/-! ## Reserved names -/

namespace Scope

theorem readName_stopsAt {c : Char} (hc : Text.isWord c = false) : Text.StopsAt c readName := by
  have hstem : c ∉ stem := fun hmem => by simp [isWord_of_mem_stem hmem] at hc
  have hdigit : Text.isDigit c = false := by
    by_contra hne
    rw [Bool.not_eq_false] at hne
    unfold Text.isDigit at hne
    unfold Text.isWord at hc
    split at hne <;> simp_all [Char.isAlphanum]
  intro s t
  unfold readName
  rw [Text.after?_append_cons hstem]
  cases Text.after? stem s with
  | none => rfl
  | some u => exact Text.readRun_stopsAt hdigit u t

theorem readName_nameOf (n : Nat) : readName (nameOf n) = some (Text.numeral n, []) := by
  have hall : ∀ c ∈ Text.numeral n, Text.isDigit c = true := fun c => Comment.isDigit_of_mem_numeral
  rw [readName, nameOf, Text.after?_append, Option.bind_some, Text.readRun, List.takeWhile_eq_self_iff.2 hall,
    List.dropWhile_eq_nil_iff.2 hall]
  cases hnumeral : Text.numeral n with
  | nil => exact absurd hnumeral Nat.toDigits_ne_nil
  | cons c t => rfl

/-- The names in a text that look synthetic. -/
def namesIn (t : Text) : List Text := (namePattern.lexemes t).map (stem ++ ·)

/-- A synthetic name that a text spells is found in it. -/
theorem mem_namesIn_of_spells {t : Text} {n : Nat} (h : Text.Spells t (nameOf n)) : nameOf n ∈ namesIn t := by
  obtain ⟨u, c, d, v, rfl, hc, hd⟩ := h
  have hname : namePattern.pieces (nameOf n) = [.lexeme (Text.numeral n)] := by
    rw [Pattern.pieces_of_read _ (readName_nameOf n), Pattern.pieces_nil]
  refine List.mem_map.2 ⟨Text.numeral n, ?_, rfl⟩
  rw [Pattern.lexemes, Pattern.pieces_append_of_stopsAt (readName_stopsAt hc),
    Pattern.pieces_append_of_stopsAt (readName_stopsAt hd), hname]
  simp [Piece.lexeme?]

end Scope
end HtmlTemplate
