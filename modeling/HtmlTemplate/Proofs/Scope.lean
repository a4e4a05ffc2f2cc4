import HtmlTemplate.Scope
import HtmlTemplate.Proofs.Directive.Retarget

/-!
# What a scope holds

No array in the data or among the bindings of a scope grows while loops are expanded. The names of
bindings are paths, and a new binding always gets a name that was free (`Scope.isTaken_free`).
-/

namespace HtmlTemplate

/-! ## Values in a scope -/

namespace Value

theorem widest_le_widestItem {items : List Value} {v : Value} (h : v ∈ items) :
    v.widest ≤ widest.widestItem items := by
  induction items with
  | nil => simp at h
  | cons item items ih =>
    rw [widest.widestItem]
    rcases List.mem_cons.1 h with rfl | hmem
    · exact le_max_left _ _
    · exact (ih hmem).trans (le_max_right _ _)

theorem widest_le_widestMember {members : List (Text × Value)} {key : Text} {v : Value}
    (h : members.lookup key = some v) : v.widest ≤ widest.widestMember members := by
  induction members with
  | nil => simp at h
  | cons member members ih =>
    obtain ⟨k, v'⟩ := member
    rw [widest.widestMember]
    rw [List.lookup_cons] at h
    split at h
    · obtain rfl := Option.some.inj h
      exact le_max_left _ _
    · exact (ih h).trans (le_max_right _ _)

theorem widest_le_of_child? {root v : Value} {segment : Text} (h : root.child? segment = some v) :
    v.widest ≤ root.widest := by
  unfold child? at h
  split at h
  · rw [widest]
    exact widest_le_widestMember h
  · obtain ⟨i, -, hi⟩ := Option.bind_eq_some_iff.1 h
    rw [widest]
    exact (widest_le_widestItem (List.mem_of_getElem? hi)).trans (le_max_right _ _)
  · simp at h

theorem widest_le_of_resolve? {root v : Value} {path : Text} (h : root.resolve? path = some v) :
    v.widest ≤ root.widest := by
  have key : ∀ (segments : List Text) (root : Value), segments.foldlM child? root = some v →
      v.widest ≤ root.widest := by
    intro segments
    induction segments with
    | nil =>
      intro root hroot
      rw [show root = v by simpa using hroot]
    | cons segment segments ih =>
      intro root hroot
      rw [List.foldlM_cons] at hroot
      obtain ⟨child, hchild, hrest⟩ := Option.bind_eq_some_iff.1 hroot
      exact (ih child hrest).trans (widest_le_of_child? hchild)
  unfold resolve? at h
  split at h
  · rw [Option.some.inj h]
  · exact key _ root h

end Value

namespace Scope

/-- No array in the scope has more than `w` items. -/
structure Narrow (w : Nat) (s : Scope) : Prop where
  data : s.data.widest ≤ w
  bindings : ∀ binding ∈ s.bindings, binding.2.widest ≤ w

theorem Narrow.lookup? {w : Nat} {s : Scope} (h : s.Narrow w) {path : Text} {v : Value}
    (hv : s.lookup? path = some v) : v.widest ≤ w := by
  unfold Scope.lookup? at hv
  split at hv
  · simp at hv
  · split at hv
    · next bound hbound =>
      obtain ⟨l₁, l₂, hl, -⟩ := List.lookup_eq_some_iff.1 hbound
      exact (Value.widest_le_of_resolve? hv).trans (h.bindings ((DataPath.splitHead path).1, bound) (by simp [hl]))
    · exact (Value.widest_le_of_resolve? hv).trans h.data

theorem Narrow.bind {w : Nat} {s : Scope} (h : s.Narrow w) {v : Value} (hv : v.widest ≤ w) :
    (s.bind v).2.Narrow w := by
  refine ⟨h.data, fun binding hbinding => ?_⟩
  rcases List.mem_append.1 hbinding with hmem | hmem
  · exact h.bindings binding hmem
  · rw [List.mem_singleton.1 hmem]
    exact hv

theorem isWord_of_mem_stem {c : Char} (h : c ∈ stem) : Text.isWord c = true := by
  simp only [stem, List.mem_cons, List.not_mem_nil, or_false] at h
  rcases h with rfl | rfl | rfl | rfl | rfl | rfl | rfl | rfl | rfl | rfl | rfl | rfl | rfl <;> decide

theorem isWord_of_mem_nameOf {n : Nat} {c : Char} (h : c ∈ nameOf n) : Text.isWord c = true := by
  rcases List.mem_append.1 h with hstem | hnumeral
  · exact isWord_of_mem_stem hstem
  · have hdigit : c.isDigit = true := Nat.isDigit_of_mem_toDigits (by decide) (by decide) hnumeral
    exact Tag.isWord_of_isAlphanum (by simp [Char.isAlphanum, hdigit])

theorem isPath_nameOf (n : Nat) : (nameOf n).IsPath :=
  ⟨by simp [nameOf, stem], fun c hc => by simp [isPathChar, isWord_of_mem_nameOf hc]⟩

theorem isPath_bind (s : Scope) (v : Value) : (s.bind v).1.IsPath := isPath_nameOf s.free

/-! ## Free names -/

theorem nameOf_injective : Function.Injective nameOf := fun m n h => by
  have hnumeral : Text.numeral m = Text.numeral n := List.append_cancel_left h
  rw [← Nat.ofDigitChars_ten_toDigits (n := m), ← Nat.ofDigitChars_ten_toDigits (n := n)]
  exact congrArg (Nat.ofDigitChars 10 · 0) hnumeral

theorem point_not_mem_nameOf (n : Nat) : '.' ∉ nameOf n := fun h => by
  have hword := isWord_of_mem_nameOf h
  revert hword
  decide

theorem splitOn_nameOf (n : Nat) : (nameOf n).splitOn '.' = [nameOf n] := by
  refine List.splitOnP_eq_singleton fun c hc => ?_
  rw [beq_eq_false_iff_ne]
  rintro rfl
  exact point_not_mem_nameOf n hc

/-- The names that are bound or reserved, and the keys of the data. -/
def takenNames (s : Scope) : List Text :=
  s.bindings.map Prod.fst ++ s.reserved ++
    match s.data with
    | .object members => members.map Prod.fst
    | _ => []

theorem length_takenNames (s : Scope) : s.takenNames.length = s.takenBound := by
  unfold takenNames takenBound
  cases s.data <;> simp [Nat.add_assoc]

theorem mem_of_isSome_lookup {members : List (Text × Value)} {key : Text}
    (h : (members.lookup key).isSome = true) : key ∈ members.map Prod.fst := by
  obtain ⟨v, hv⟩ := Option.isSome_iff_exists.1 h
  obtain ⟨l₁, l₂, hl, -⟩ := List.lookup_eq_some_iff.1 hv
  simp [hl]

theorem child?_nameOf {root : Value} {n : Nat} (h : (root.child? (nameOf n)).isSome = true) :
    ∃ members, root = .object members ∧ nameOf n ∈ members.map Prod.fst := by
  cases root with
  | object members => exact ⟨members, rfl, mem_of_isSome_lookup h⟩
  | array items =>
    have hindex : Value.index? (nameOf n) = none := by
      simp [Value.index?, nameOf, stem, Text.ofNumeral?]
    simp [Value.child?, hindex] at h
  | null | bool | number | string => simp [Value.child?] at h

theorem mem_takenNames {s : Scope} {n : Nat} (h : s.isTaken (nameOf n) = true) : nameOf n ∈ s.takenNames := by
  simp only [isTaken, Bool.or_eq_true, List.contains_iff_mem] at h
  rcases h with (h | h) | h
  · simp [takenNames, mem_of_isSome_lookup h]
  · simp [takenNames, h]
  · rw [Value.resolve?, if_neg (by simp [nameOf, stem]), DataPath.segments, splitOn_nameOf] at h
    have hchild : (s.data.child? (nameOf n)).isSome = true := by simpa using h
    obtain ⟨members, hdata, hmem⟩ := child?_nameOf hchild
    rw [takenNames, hdata]
    exact List.mem_append_right _ hmem

theorem isTaken_of_freeFrom {s : Scope} {fuel n : Nat} (h : s.isTaken (nameOf (s.freeFrom fuel n)) = true) :
    ∀ i < fuel, s.isTaken (nameOf (n + i)) = true := by
  induction fuel generalizing n with
  | zero => simp
  | succ fuel ih =>
    rw [freeFrom] at h
    split at h
    · next htaken =>
      intro i hi
      cases i with
      | zero => exact htaken
      | succ i =>
        have := ih h i (by omega)
        rwa [Nat.add_assoc, Nat.add_comm 1 i] at this
    · next hfree => exact absurd h hfree

/-- Of more names than are taken one is free, and it is found. -/
theorem isTaken_free (s : Scope) : s.isTaken (nameOf s.free) = false := by
  by_contra hne
  rw [Bool.not_eq_false] at hne
  have htaken := isTaken_of_freeFrom hne
  have hnodup : ((List.range (s.takenBound + 1)).map fun i => nameOf (s.next + i)).Nodup :=
    List.nodup_range.map fun i j hij => Nat.add_left_cancel (nameOf_injective hij)
  have hsub : ((List.range (s.takenBound + 1)).map fun i => nameOf (s.next + i)) ⊆ s.takenNames := by
    intro name hname
    obtain ⟨i, hi, rfl⟩ := List.mem_map.1 hname
    exact mem_takenNames (htaken i (List.mem_range.1 hi))
  have hle := (hnodup.subperm hsub).length_le
  rw [length_takenNames, List.length_map, List.length_range] at hle
  omega

end Scope
end HtmlTemplate
