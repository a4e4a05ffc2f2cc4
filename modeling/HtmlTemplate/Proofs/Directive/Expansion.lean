import HtmlTemplate.Proofs.Directive.WellFormed

/-!
# Expansion of balanced texts

Expansion of a balanced text with well-formed directives goes through finitely many rounds
(`Directive.expandIn_settles`), whatever the scope. Then a loop is at fault, or a balanced text with
well-formed directives is left that has no loops (`Directive.balanced_expand`). The rounds that are counted are
those that expansion makes (`Directive.exists_rounds`).
-/

namespace HtmlTemplate

namespace Directive

open Markup (Balanced)

/-! ## What expansion leaves -/

/-- In any scope, expansion leaves a balanced text without loops, or a loop is at fault. -/
theorem exists_expandIn {t : Text} (hbalanced : Balanced t) (h : WellFormed t) (s : Scope) :
    (∃ e s', expandIn t s = (.error e, s') ∧ e.IsLoopFault) ∨
      ∃ u s', expandIn t s = (.ok u, s') ∧ Balanced u ∧ WellFormed u ∧
        ∀ tag ∈ (Markup.ofText u).tags, ofTag? .loop tag = none := by
  obtain ⟨x, tail, F, hnested, rfl⟩ := Nested.exists_of_wellFormed hbalanced h
  rcases hnested.exists_expandIn s with ⟨e, s', he, hfault⟩ | ⟨x', F', s', he, hnested', hnone⟩
  · exact .inl ⟨e, s', he, hfault⟩
  · refine .inr ⟨_, s', he, hnested'.balanced, hnested'.wellFormed, ?_⟩
    rw [hnested'.ofText_text]
    exact Markup.eq_none_of_cutAtTag_eq_none hnone

/-- Expansion of a balanced text with well-formed directives leaves such a text, with no loop in it, or
a loop is at fault: its expression, or what its source is. -/
theorem balanced_expand {t : Text} (hbalanced : Balanced t) (h : WellFormed t) (data : Value) :
    (∃ u, (expand t data).1 = .ok u ∧ Balanced u ∧ WellFormed u ∧
        ∀ tag ∈ (Markup.ofText u).tags, ofTag? .loop tag = none) ∨
      ∃ e, (expand t data).1 = .error e ∧ e.IsLoopFault := by
  rcases exists_expandIn hbalanced h ((Scope.ofData data).reserve t) with
    ⟨e, s, he, hfault⟩ | ⟨u, s, he, hu⟩
  · exact .inr ⟨e, by rw [expand, he], hfault⟩
  · exact .inl ⟨u, by rw [expand, he], hu⟩

/-- A guarded loop inside a loop over its rows, one of them empty. -/
theorem balanced_expand_rows :
    let t := "<ul *for='row of rows'><li *for='x of row' *if='x' />{{x}}</ul>".toList
    let data := Value.object [("rows".toList, .array [.array [], .array [.string ['a']]])]
    let u := "<ul>{{x}}</ul><ul><li *if='__templ_iter_2' />{{x}}</ul>".toList
    Balanced t ∧ WellFormed t ∧ (expand t data).1 = .ok u ∧ Balanced u ∧ WellFormed u ∧
      ∀ tag ∈ (Markup.ofText u).tags, ofTag? .loop tag = none := by
  intro t data u
  have hbalanced : Balanced t := .inl (by decide +kernel)
  have h : WellFormed t := .of_not_mem (by decide +kernel) (by decide +kernel)
  have hexpand : (expand t data).1 = .ok u := by decide +kernel
  rcases balanced_expand hbalanced h data with ⟨v, hv, hleft⟩ | ⟨e, he, -⟩
  · obtain rfl := Except.ok.inj (hexpand.symm.trans hv)
    exact ⟨hbalanced, h, hexpand, hleft⟩
  · rw [hexpand] at he
    simp at he

/-! ## Rounds -/

/-- One round: the first loop of the text is expanded. -/
def Round (p q : Text × Scope) : Prop :=
  ∃ front d rest, find? .loop (Markup.ofText p.1) = some (front, d, rest) ∧
    expandAt front d rest p.2 = (.ok q.1, q.2)

/-- A number of rounds one after another. -/
inductive Rounds : Nat → Text × Scope → Text × Scope → Prop where
  | refl (p : Text × Scope) : Rounds 0 p p
  | step {n : Nat} {p q r : Text × Scope} : Round p q → Rounds n q r → Rounds (n + 1) p r

/-- Expansion goes through the rounds there are, as far as it may. -/
theorem expandRounds_add {n : Nat} {p q : Text × Scope} (h : Rounds n p q) (m : Nat) :
    expandRounds (n + m) p.1 p.2 = expandRounds m q.1 q.2 := by
  induction h with
  | refl => rw [Nat.zero_add]
  | step hround _ ih =>
    obtain ⟨front, d, rest, hfind, hexpand⟩ := hround
    rw [Nat.add_right_comm, expandRounds, hfind]
    dsimp only
    rw [hexpand]
    exact ih

theorem expandRounds_of_not_round {q : Text × Scope} (h : ∀ r, ¬ Round q r) (m : Nat) :
    expandRounds (m + 1) q.1 q.2 = expandRounds 1 q.1 q.2 := by
  rw [expandRounds, expandRounds]
  split
  · rfl
  · next front d rest hfind =>
    split
    · rfl
    · next u s hexpand => exact absurd ⟨front, d, rest, hfind, hexpand⟩ (h (u, s))

/-- Expansion makes exactly these rounds: as many as it may, or until there is no further one. -/
theorem exists_rounds (rounds : Nat) (p : Text × Scope) :
    (∃ q, Rounds rounds p q ∧ expandRounds rounds p.1 p.2 = (.error .unsettledLoops, q.2)) ∨
      ∃ n q, n < rounds ∧ Rounds n p q ∧ (∀ r, ¬ Round q r) ∧
        expandRounds rounds p.1 p.2 = expandRounds 1 q.1 q.2 := by
  induction rounds generalizing p with
  | zero => exact .inl ⟨p, .refl p, rfl⟩
  | succ rounds ih =>
    by_cases hround : ∃ q, Round p q
    · obtain ⟨q, hround⟩ := hround
      have hstep := expandRounds_add (.step hround (.refl q)) rounds
      rw [Nat.zero_add, Nat.add_comm] at hstep
      rw [hstep]
      rcases ih q with ⟨r, hrounds, he⟩ | ⟨n, r, hlt, hrounds, hlast, he⟩
      · exact .inl ⟨r, .step hround hrounds, he⟩
      · exact .inr ⟨n + 1, r, by omega, .step hround hrounds, hlast, he⟩
    · rw [not_exists] at hround
      exact .inr ⟨0, p, by omega, .refl p, hround, expandRounds_of_not_round hround rounds⟩

theorem expandRounds_eq_of_le {n m : Nat} (hle : n ≤ m) {t : Text} {s : Scope}
    (h : (expandRounds n t s).1 ≠ .error .unsettledLoops) : expandRounds m t s = expandRounds n t s := by
  rcases exists_rounds n (t, s) with ⟨q, -, he⟩ | ⟨k, q, hlt, hrounds, hlast, he⟩
  · exact absurd (congrArg Prod.fst he) h
  · have hmore := expandRounds_add hrounds (m - k - 1 + 1)
    rw [show k + (m - k - 1 + 1) = m by omega, expandRounds_of_not_round hlast] at hmore
    exact hmore.trans he.symm

end Directive

namespace Nested

open Directive (Rounds)

variable {R : Discipline} {pre x post : Markup} {tail : Text} {F : Forest}

/-- There are no more rounds than the document weighs. -/
theorem le_weight_of_rounds (h : Nested R pre x post tail F) {w : Nat} {s : Scope} (hs : s.Narrow w)
    {n : Nat} {q : Text × Scope} (hrounds : Rounds n ((document pre x post tail).text, s) q) :
    n ≤ F.weight (w + 2) Tag.load := by
  generalize hp : ((document pre x post tail).text, s) = p at hrounds
  induction hrounds generalizing x F s with
  | refl => exact Nat.zero_le _
  | step hround _ ih =>
    obtain ⟨front, d, rest, hfind, hexpand⟩ := hround
    subst hp
    rw [h.ofText_text] at hfind
    rcases h.exists_expandAt hfind hs with ⟨e, s', he, -⟩ | ⟨x', F', s', he, h', hlt, hs'⟩
    · simp [hexpand] at he
    · obtain ⟨htext, hscope⟩ := Prod.mk.inj (he.symm.trans hexpand)
      have := ih h' hs' (Prod.ext (Except.ok.inj htext) hscope)
      omega

end Nested

namespace Directive

open Markup (Balanced)

/-- A balanced text with well-formed directives takes fewer rounds than it is given, in any scope, so its
expansion comes to an end, and to the same one with any greater number of rounds. -/
theorem expandIn_settles {t : Text} (hbalanced : Balanced t) (h : WellFormed t) (s : Scope) :
    (∀ n q, Rounds n (t, s) q → n < roundBound t s) ∧
      (expandIn t s).1 ≠ .error .unsettledLoops ∧
        ∀ rounds, roundBound t s ≤ rounds → expandRounds rounds t s = expandIn t s := by
  have hsettled : (expandIn t s).1 ≠ .error .unsettledLoops := by
    rcases exists_expandIn hbalanced h s with ⟨e, s', he, hfault⟩ | ⟨u, s', he, -⟩
    · rw [he]
      rintro ⟨⟩
      exact hfault
    · rw [he]
      simp
  refine ⟨fun n q hrounds => ?_, hsettled, fun rounds hle => expandRounds_eq_of_le hle hsettled⟩
  obtain ⟨x, tail, F, hnested, rfl⟩ := Nested.exists_of_wellFormed hbalanced h
  exact (hnested.le_weight_of_rounds s.narrow_width hrounds).trans_lt (hnested.weight_lt_roundBound s)

/-- A loop inside a loop over the same item. -/
theorem expandIn_settles_shadowed :
    let t := "<ul *for='x of xs'><li *for='x of x'>{{x}}</li></ul>".toList
    let s := Scope.ofData (.object [("xs".toList, .array [.array [.string ['a']]])])
    Balanced t ∧ WellFormed t ∧ (∀ n q, Rounds n (t, s) q → n < roundBound t s) ∧
      (expandIn t s).1 ≠ .error .unsettledLoops ∧
        ∀ rounds, roundBound t s ≤ rounds → expandRounds rounds t s = expandIn t s := by
  intro t s
  have hbalanced : Balanced t := .inl (by decide +kernel)
  have h : WellFormed t := .of_not_mem (by decide +kernel) (by decide +kernel)
  exact ⟨hbalanced, h, expandIn_settles hbalanced h s⟩

end Directive
end HtmlTemplate
