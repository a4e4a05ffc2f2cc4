import HtmlTemplate.Proofs.Scope.Names

/-!
# Runs of calls on a scope

A scope is changed by calls that reserve the names of a text or bind a value. What is taken stays taken
(`Scope.isTaken_call`), so a name that a run returns was free before it (`Scope.isTaken_of_mem_returned`),
all names that it returns differ, and each is found again with its value. Every other path leads where it
leads in the data (`Scope.run_sound`).
-/

namespace HtmlTemplate.Scope

/-- A call that changes a scope. -/
inductive Call where
  /-- Reserves the names in a text. -/
  | reserve (t : Text)
  /-- Binds a value to a new name. -/
  | bind (value : Value)

def call (s : Scope) : Call → Scope
  | .reserve t => s.reserve t
  | .bind value => (s.bind value).2

def run (s : Scope) (calls : List Call) : Scope := calls.foldl call s

/-- The names that calls return, each with the value bound to it. -/
def returned (s : Scope) : List Call → List (Text × Value)
  | [] => []
  | .reserve t :: calls => (s.reserve t).returned calls
  | .bind value :: calls => ((s.bind value).1, value) :: (s.bind value).2.returned calls

def reservedBy : List Call → List Text
  | [] => []
  | .reserve t :: calls => namesIn t ++ reservedBy calls
  | .bind _ :: calls => reservedBy calls

/-! ## What a run leaves -/

@[simp] theorem run_nil (s : Scope) : s.run [] = s := rfl

@[simp] theorem run_cons (s : Scope) (c : Call) (calls : List Call) : s.run (c :: calls) = (s.call c).run calls := rfl

theorem run_append (s : Scope) (calls later : List Call) : s.run (calls ++ later) = (s.run calls).run later :=
  List.foldl_append

@[simp] theorem data_run (s : Scope) (calls : List Call) : (s.run calls).data = s.data := by
  induction calls generalizing s with
  | nil => rfl
  | cons c calls ih => cases c <;> exact ih _

theorem bindings_run (s : Scope) (calls : List Call) :
    (s.run calls).bindings = s.bindings ++ s.returned calls := by
  induction calls generalizing s with
  | nil => simp [returned]
  | cons c calls ih =>
    cases c with
    | reserve t => exact ih _
    | bind value =>
      rw [run_cons, ih, returned, List.append_cons]
      rfl

theorem reserved_run (s : Scope) (calls : List Call) :
    (s.run calls).reserved = s.reserved ++ reservedBy calls := by
  induction calls generalizing s with
  | nil => simp [reservedBy]
  | cons c calls ih =>
    cases c with
    | reserve t =>
      rw [run_cons, ih, reservedBy, ← List.append_assoc]
      rfl
    | bind value => exact ih _

/-! ## Names that are taken -/

theorem isTaken_call {s : Scope} {name : Text} (h : s.isTaken name = true) (c : Call) :
    (s.call c).isTaken name = true := by
  simp only [isTaken, Bool.or_eq_true, List.contains_iff_mem] at h ⊢
  refine h.imp (Or.imp (fun hbound => ?_) fun hreserved => ?_) fun hdata => ?_
  · cases c with
    | reserve t => exact hbound
    | bind value =>
      show ((s.bindings ++ [((s.bind value).1, value)]).lookup name).isSome = true
      rw [List.lookup_append, Option.isSome_or, hbound, Bool.true_or]
  · cases c with
    | reserve t => exact List.mem_append_left _ hreserved
    | bind value => exact hreserved
  · cases c <;> exact hdata

theorem isTaken_bind_self (s : Scope) (v : Value) : (s.bind v).2.isTaken (s.bind v).1 = true := by
  simp [isTaken, s.lookup_bind_self v]

/-- The search for a name ends, at the first number from the next one on whose name is free. -/
theorem isLeast_free (s : Scope) : IsLeast {n | s.next ≤ n ∧ s.isTaken (nameOf n) = false} s.free := by
  have key : ∀ fuel n, n ≤ s.freeFrom fuel n ∧
      ∀ m, n ≤ m → m < s.freeFrom fuel n → s.isTaken (nameOf m) = true := by
    intro fuel
    induction fuel with
    | zero => exact fun n => ⟨le_rfl, fun m hle hlt => absurd hle (not_le_of_gt hlt)⟩
    | succ fuel ih =>
      intro n
      rw [freeFrom]
      split
      · next htaken =>
        obtain ⟨hle, hbelow⟩ := ih (n + 1)
        refine ⟨by omega, fun m hm hlt => ?_⟩
        rcases Nat.eq_or_lt_of_le hm with rfl | hm
        · exact htaken
        · exact hbelow m hm hlt
      · exact ⟨le_rfl, fun m hle hlt => absurd hle (not_le_of_gt hlt)⟩
  obtain ⟨hle, hbelow⟩ := key (s.takenBound + 1) s.next
  refine ⟨⟨hle, s.isTaken_free⟩, fun m hm => ?_⟩
  by_contra hlt
  simp [hbelow m hm.1 (not_le.1 hlt)] at hm

/-! ## Names that are returned -/

/-- A name that a run returns was free before the run, and is synthetic. -/
theorem isTaken_of_mem_returned {s : Scope} {calls : List Call} {binding : Text × Value}
    (h : binding ∈ s.returned calls) : s.isTaken binding.1 = false ∧ ∃ n, binding.1 = nameOf n := by
  induction calls generalizing s with
  | nil => simp [returned] at h
  | cons c calls ih =>
    have later : binding ∈ (s.call c).returned calls →
        s.isTaken binding.1 = false ∧ ∃ n, binding.1 = nameOf n := by
      intro hmem
      obtain ⟨hfree, hname⟩ := ih hmem
      refine ⟨?_, hname⟩
      by_contra htaken
      simp [isTaken_call (by simpa using htaken) c] at hfree
    cases c with
    | reserve t => exact later h
    | bind value =>
      rcases List.mem_cons.1 h with rfl | hmem
      · exact ⟨s.isTaken_free, s.free, rfl⟩
      · exact later hmem

theorem nodup_returned (s : Scope) (calls : List Call) : ((s.returned calls).map Prod.fst).Nodup := by
  induction calls generalizing s with
  | nil => simp [returned]
  | cons c calls ih =>
    cases c with
    | reserve t => exact ih _
    | bind value =>
      refine List.nodup_cons.2 ⟨fun hmem => ?_, ih _⟩
      obtain ⟨binding, hbinding, he⟩ := List.mem_map.1 hmem
      have hfree := (isTaken_of_mem_returned hbinding).1
      rw [he, s.isTaken_bind_self value] at hfree
      simp at hfree

theorem lookup_of_mem_of_nodup {bindings : List (Text × Value)} (h : (bindings.map Prod.fst).Nodup)
    {binding : Text × Value} (hmem : binding ∈ bindings) : bindings.lookup binding.1 = some binding.2 := by
  obtain ⟨l₁, l₂, rfl⟩ := List.append_of_mem hmem
  refine List.lookup_eq_some_iff.2 ⟨l₁, l₂, rfl, fun p hp => ?_⟩
  rw [List.map_append, List.map_cons] at h
  rw [bne_iff_ne]
  intro he
  exact (List.disjoint_of_nodup_append h) (List.mem_map_of_mem hp) (by simp [he])

theorem splitHead_nameOf (n : Nat) : DataPath.splitHead (nameOf n) = (nameOf n, []) := by
  have hall : ∀ c ∈ nameOf n, (c != '.') = true := fun c hc => by
    rw [bne_iff_ne]
    rintro rfl
    exact point_not_mem_nameOf n hc
  rw [DataPath.splitHead, List.takeWhile_eq_self_iff.2 hall, List.dropWhile_eq_nil_iff.2 hall]
  rfl

theorem lookup_eq_none_of_not_mem {s : Scope} {name : Text} (h : name ∉ s.bindings.map Prod.fst) :
    s.bindings.lookup name = none := by
  by_contra hsome
  exact h (mem_of_isSome_lookup (Option.isSome_iff_ne_none.2 hsome))

theorem lookup?_of_lookup_eq_none {s : Scope} {path : Text} (hne : path ≠ [])
    (h : s.bindings.lookup (DataPath.splitHead path).1 = none) : s.lookup? path = s.data.resolve? path := by
  rw [lookup?, if_neg (by simpa using hne), h]

/-- Whatever calls are made on the scope of some data: the search of each binding ends, at a name that is
not reserved by then and does not resolve in the data. All names that are returned differ, and each leads to
its value from then on. A path that begins with none of them leads where it leads in the data. -/
theorem run_sound (data : Value) (calls : List Call) :
    (∀ before after v, calls = before ++ .bind v :: after →
      let s := (ofData data).run before
      IsLeast {n | s.next ≤ n ∧ s.isTaken (nameOf n) = false} s.free ∧ (s.bind v).1 = nameOf s.free ∧
        ((s.bind v).1, v) ∈ (ofData data).returned calls ∧
        (s.bind v).1 ∉ reservedBy before ∧ data.resolve? (s.bind v).1 = none) ∧
    (((ofData data).returned calls).map Prod.fst).Nodup ∧
    (∀ binding ∈ (ofData data).returned calls,
      ((ofData data).run calls).lookup? binding.1 = some binding.2) ∧
    ∀ path, path ≠ [] → (DataPath.splitHead path).1 ∉ ((ofData data).returned calls).map Prod.fst →
      ((ofData data).run calls).lookup? path = data.resolve? path := by
  have hbindings : ((ofData data).run calls).bindings = (ofData data).returned calls := bindings_run _ _
  have hnodup := (ofData data).nodup_returned calls
  refine ⟨fun before after v hcalls => ?_, hnodup, fun binding hbinding => ?_, fun path hne hpath => ?_⟩
  · have hfree := ((ofData data).run before).isTaken_free
    rw [isTaken, reserved_run, data_run] at hfree
    simp only [Bool.or_eq_false_iff, List.contains_eq_mem, decide_eq_false_iff_not, Option.isSome_eq_false_iff,
      Option.isNone_iff_eq_none] at hfree
    refine ⟨isLeast_free _, rfl, ?_, hfree.1.2, hfree.2⟩
    rw [← hbindings, hcalls, run_append, run_cons, bindings_run]
    exact List.mem_append_left _ (List.mem_append_right _ (List.mem_singleton_self _))
  · obtain ⟨n, hn⟩ := (isTaken_of_mem_returned hbinding).2
    rw [lookup?, if_neg (by simp [hn, nameOf, stem]), hn, splitHead_nameOf, hbindings, ← hn,
      lookup_of_mem_of_nodup hnodup hbinding]
    rfl
  · rw [lookup?_of_lookup_eq_none hne (lookup_eq_none_of_not_mem (hbindings ▸ hpath)), data_run]
    rfl

/-- A binding passes over the key of the data and over the reserved name. -/
theorem run_sound_taken :
    let data := Value.object [("__templ_iter_0".toList, .string ['k'])]
    let calls := [Call.reserve "{{__templ_iter_1.x}}".toList, .bind (.string ['v']), .bind .null]
    ((ofData data).returned calls).map Prod.fst = ["__templ_iter_2".toList, "__templ_iter_3".toList] ∧
      ((ofData data).run calls).lookup? "__templ_iter_2".toList = some (.string ['v']) ∧
      ((ofData data).run calls).lookup? "__templ_iter_0".toList = data.resolve? "__templ_iter_0".toList := by
  intro data calls
  have hnames : ((ofData data).returned calls).map Prod.fst =
      ["__templ_iter_2".toList, "__templ_iter_3".toList] := by decide +kernel
  obtain ⟨hbind, -, hbound, hdata⟩ := run_sound data calls
  obtain ⟨-, -, hmem, -⟩ := hbind [.reserve "{{__templ_iter_1.x}}".toList] [.bind .null] (.string ['v']) rfl
  have hname : (((ofData data).run [.reserve "{{__templ_iter_1.x}}".toList]).bind (.string ['v'])).1 =
      "__templ_iter_2".toList := by decide +kernel
  rw [hname] at hmem
  exact ⟨hnames, hbound _ hmem, hdata _ (by decide) (by rw [hnames]; decide)⟩

end HtmlTemplate.Scope
