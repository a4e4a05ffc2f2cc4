import HtmlTemplate.Proofs.Scope.Calls

/-!
# Paths to bound values

A path is followed in two ways. In data it is cut into all its segments. Below a binding its first segment is the
name, and what follows the point is a path of its own, where the empty path leads to the value itself. The two ways
agree on every path below a name but one, the name with a point behind it (`Scope.lookup_below_bind_iff`): there the
data has an empty segment, and the binding has nothing.
-/

namespace HtmlTemplate

/-! ## Cutting a path behind its first segment -/

namespace DataPath

variable {name : Text}

theorem splitHead_append_cons (h : '.' ∉ name) (rest : Text) : splitHead (name ++ '.' :: rest) = (name, rest) := by
  have hall : ∀ c ∈ name, (c != '.') = true := fun c hc => by
    rw [bne_iff_ne]
    rintro rfl
    exact h hc
  rw [splitHead, List.takeWhile_append_of_pos hall, List.dropWhile_append_of_pos hall]
  simp

theorem segments_of_not_mem (h : '.' ∉ name) : segments name = [name] := by
  refine List.splitOnP_eq_singleton fun c hc => beq_false_of_ne ?_
  rintro rfl
  exact h hc

theorem segments_append_cons (h : '.' ∉ name) (rest : Text) :
    segments (name ++ '.' :: rest) = name :: segments rest := by
  rw [segments, List.splitOn, List.splitOnP_append_cons name rest (by simp)]
  exact congrArg (· ++ segments rest) (segments_of_not_mem h)

end DataPath

/-! ## Following a path from a member -/

namespace Value

variable {name : Text}

theorem child?_member (name : Text) (v : Value) : (object [(name, v)]).child? name = some v := by
  simp [child?]

theorem resolve?_member (hne : name ≠ []) (h : '.' ∉ name) (v : Value) :
    (object [(name, v)]).resolve? name = some v := by
  rw [resolve?, if_neg (by simpa using hne), DataPath.segments_of_not_mem h]
  simp [child?_member]

theorem resolve?_member_append (h : '.' ∉ name) (v : Value) (rest : Text) :
    (object [(name, v)]).resolve? (name ++ '.' :: rest) = (DataPath.segments rest).foldlM child? v := by
  rw [resolve?, if_neg (by simp), DataPath.segments_append_cons h, List.foldlM_cons, child?_member]
  rfl

theorem sizeOf_lt_of_child? {root v : Value} {segment : Text} (h : root.child? segment = some v) :
    sizeOf v < sizeOf root := by
  cases root with
  | object members =>
    obtain ⟨l₁, l₂, rfl, -⟩ := List.lookup_eq_some_iff.1 h
    have hlt : sizeOf (segment, v) < sizeOf (l₁ ++ (segment, v) :: l₂) := List.sizeOf_lt_of_mem (by simp)
    simp only [Prod.mk.sizeOf_spec, object.sizeOf_spec] at hlt ⊢
    omega
  | array items =>
    obtain ⟨i, -, hi⟩ := Option.bind_eq_some_iff.1 h
    have hlt := List.sizeOf_lt_of_mem (List.mem_of_getElem? hi)
    rw [array.sizeOf_spec]
    omega
  | null | bool | number | string => simp [child?] at h

theorem child?_ne_some_self (v : Value) (segment : Text) : v.child? segment ≠ some v := fun h =>
  Nat.lt_irrefl _ (sizeOf_lt_of_child? h)

end Value

/-! ## Following a path from a binding -/

namespace Scope

variable {s : Scope} {name : Text} {v : Value}

theorem lookup?_append_cons (hbound : s.bindings.lookup name = some v) (h : '.' ∉ name) (rest : Text) :
    s.lookup? (name ++ '.' :: rest) = v.resolve? rest := by
  rw [lookup?, if_neg (by simp), DataPath.splitHead_append_cons h, hbound]

theorem lookup_run (hbound : s.bindings.lookup name = some v) (calls : List Call) :
    (s.run calls).bindings.lookup name = some v := by
  rw [bindings_run, List.lookup_append, hbound, Option.some_or]

/-- A path that begins with the name of a binding, whatever calls follow the one that made it, leads where it would
lead if the value were a member of that name in the data, unless the path is the name and a point. That path leads
to the value; in the data it leads to what the value has under the empty key. -/
theorem lookup_below_bind_iff (s : Scope) (v : Value) (calls : List Call) {suffix : Text}
    (h : suffix = [] ∨ suffix.head? = some '.') :
    let name := (s.bind v).1
    let later := (s.bind v).2.run calls
    let data := Value.object [(name, v)]
    (later.lookup? (name ++ suffix) = data.resolve? (name ++ suffix) ↔ suffix ≠ ['.']) ∧
      later.lookup? (name ++ ['.']) = some v ∧ data.resolve? (name ++ ['.']) = v.child? [] := by
  intro name later data
  have hpoint : '.' ∉ name := point_not_mem_nameOf s.free
  have hne : name ≠ [] := by simp [name, bind, nameOf, stem]
  have hbound : later.bindings.lookup name = some v := lookup_run (s.lookup_bind_self v) calls
  have hempty : later.lookup? (name ++ ['.']) = some v := lookup?_append_cons hbound hpoint []
  have hmember : data.resolve? (name ++ ['.']) = v.child? [] := by
    rw [Value.resolve?_member_append hpoint]
    simp [DataPath.segments]
  refine ⟨?_, hempty, hmember⟩
  rcases h with rfl | hsuffix
  · -- the name alone
    have hname : later.lookup? name = some v := by
      rw [lookup?, if_neg (by simpa using hne), show DataPath.splitHead name = (name, []) from splitHead_nameOf _,
        hbound]
      rfl
    simp [hname, data, Value.resolve?_member hne hpoint]
  · obtain ⟨rest, rfl⟩ := List.head?_eq_some_iff.1 hsuffix
    by_cases hrest : rest = []
    · rw [hrest, hempty, hmember]
      simpa using (v.child?_ne_some_self []).symm
    · have hdata : data.resolve? (name ++ '.' :: rest) = v.resolve? rest := by
        rw [Value.resolve?_member_append hpoint, Value.resolve?, if_neg (by simpa using hrest)]
      simp [lookup?_append_cons hbound hpoint, hdata, hrest]

/-- The second item of a bound list, and an empty segment in the middle of a path. -/
theorem lookup_below_bind_items :
    let s := ofData (.object [("__templ_iter_0".toList, .null)])
    let v := Value.object [([], .array [.null, .string ['b']])]
    "..1".toList.head? = some '.' ∧ (s.bind v).1 = "__templ_iter_1".toList ∧
      ((s.bind v).2.bind .null).2.lookup? "__templ_iter_1..1".toList =
        (Value.object [("__templ_iter_1".toList, v)]).resolve? "__templ_iter_1..1".toList := by
  intro s v
  have hname : (s.bind v).1 = "__templ_iter_1".toList := by decide +kernel
  obtain ⟨hagree, -⟩ := @lookup_below_bind_iff s v [.bind .null] "..1".toList (.inr rfl)
  rw [hname] at hagree
  exact ⟨rfl, hname, hagree.2 (by decide)⟩

/-- A point behind the name of a binding leads to the value, where it would lead nowhere in the data. -/
theorem lookup_below_bind_point :
    let s := ofData (.object [])
    let v := Value.string ['a']
    (s.bind v).2.lookup? ((s.bind v).1 ++ ['.']) ≠
      (Value.object [((s.bind v).1, v)]).resolve? ((s.bind v).1 ++ ['.']) := by
  intro s v h
  have hsome : ((s.bind v).2.lookup? ((s.bind v).1 ++ ['.'])).isSome = true := by decide +kernel
  have hnone : ((Value.object [((s.bind v).1, v)]).resolve? ((s.bind v).1 ++ ['.'])).isSome = false := by
    decide +kernel
  rw [h, hnone] at hsome
  simp at hsome

end Scope
end HtmlTemplate
