import HtmlTemplate.Command.Run
import HtmlTemplate.Library
import HtmlTemplate.Proofs.Files

/-!
# Confined path names

The steps of a path name are followed with a stack of the names reached. The stack is never popped when empty, exactly
if no beginning of the steps climbs more often than it descends (`PathName.isSome_follow?_iff`). Following steps
after others goes on from the names that those reached (`PathName.follow?_append`), and names alone are reached as
they stand. So a confined name may be exchanged for the names it leads through, wherever another name is seen from it
(`PathName.confined_sound`).
-/

namespace HtmlTemplate.PathName

def Step.isName : Step → Bool
  | .name _ => true
  | _ => false

/-! ## Steps -/

theorem root_not_mem_filterMap (parts : List Text) : Step.root ∉ parts.filterMap stepOf? := by
  intro h
  obtain ⟨part, -, hstep⟩ := List.mem_filterMap.1 h
  unfold stepOf? at hstep
  split_ifs at hstep
  all_goals simp at hstep

theorem root_mem_steps {path : Text} : .root ∈ steps path ↔ isAbsolute path = true := by
  rw [steps, List.mem_append, or_iff_left (root_not_mem_filterMap _)]
  split <;> simp_all

theorem steps_of_relative {path : Text} (h : isAbsolute path = false) :
    steps path = (parts path).filterMap stepOf? := by
  rw [steps, if_neg (by simp [h]), List.nil_append]

theorem steps_join (base : Text) {path : Text} (h : isAbsolute path = false) :
    steps (join base path) = steps base ++ steps path := by
  rw [steps_of_relative h, steps, isAbsolute_join base h, parts_join base h, List.filterMap_append,
    ← List.append_assoc, steps]

theorem stepOf?_name {name : Text} (h : IsName name) : stepOf? name = some (.name name) := by
  rw [stepOf?, if_neg h.ne_here, if_neg h.ne_parent]

theorem steps_ofNames {names : List Text} (h : ∀ name ∈ names, IsName name) :
    steps (ofNames names) = names.map .name := by
  rw [steps_of_relative (isAbsolute_ofNames h), parts_ofNames h, List.filterMap_congr fun name hname =>
    stepOf?_name (h name hname), List.filterMap_eq_map']

/-! ## Following steps -/

/-- No beginning of the steps climbs above where a stack of that depth starts. -/
def StaysWithin (depth : Nat) (steps : List Step) : Prop :=
  ∀ front, front <+: steps → front.count .parent ≤ depth + front.countP Step.isName

namespace StaysWithin

variable {depth : Nat} {steps : List Step}

theorem nil (depth : Nat) : StaysWithin depth [] := by simp [StaysWithin]

theorem cons_iff {step : Step} : StaysWithin depth (step :: steps) ↔
    ∀ front, front <+: steps → (step :: front).count .parent ≤ depth + (step :: front).countP Step.isName := by
  constructor
  · exact fun h front hfront => h _ (List.cons_prefix_cons.2 ⟨rfl, hfront⟩)
  · intro h front hfront
    obtain rfl | ⟨behind, rfl, hbehind⟩ := List.prefix_cons_iff.1 hfront
    · simp
    · exact h behind hbehind

theorem name_iff {n : Text} : StaysWithin depth (.name n :: steps) ↔ StaysWithin (depth + 1) steps := by
  rw [cons_iff]
  refine forall₂_congr fun front _ => ?_
  rw [List.count_cons_of_ne (by simp), List.countP_cons_of_pos (by rfl)]
  omega

theorem parent_iff : StaysWithin (depth + 1) (.parent :: steps) ↔ StaysWithin depth steps := by
  rw [cons_iff]
  refine forall₂_congr fun front _ => ?_
  rw [List.count_cons_self, List.countP_cons_of_neg (by simp [Step.isName])]
  omega

theorem not_zero_parent : ¬ StaysWithin 0 (.parent :: steps) := fun h => by
  have := cons_iff.1 h [] (List.nil_prefix)
  simp [Step.isName] at this

end StaysWithin

/-- Steps can be followed from names reached, if they do not go to the root and do not climb above where the names
started. -/
theorem isSome_follow?_iff (reached : List Text) (steps : List Step) :
    (follow? reached steps).isSome = true ↔ .root ∉ steps ∧ StaysWithin reached.length steps := by
  fun_induction follow? reached steps with
  | case1 reached => simp [StaysWithin.nil]
  | case2 reached n rest ih => simpa [StaysWithin.name_iff] using ih
  | case3 n reached rest ih => simpa [StaysWithin.parent_iff] using ih
  | case4 rest => simp [StaysWithin.not_zero_parent]
  | case5 reached rest => simp

theorem follow?_append (reached : List Text) (steps more : List Step) :
    follow? reached (steps ++ more) = (follow? reached steps).bind fun names => follow? names.reverse more := by
  fun_induction follow? reached steps with
  | case1 reached => simp
  | case2 reached n rest ih => simpa [follow?] using ih
  | case3 n reached rest ih => simpa [follow?] using ih
  | case4 rest => simp [follow?]
  | case5 reached rest => simp [follow?]

theorem follow?_map_name (reached names : List Text) :
    follow? reached (names.map .name) = some (reached.reverse ++ names) := by
  induction names generalizing reached with
  | nil => simp [follow?]
  | cons name names ih => simp [follow?, ih]

/-- Where steps can be followed, they lead where the parts lead that they come from. -/
theorem eq_foldl_of_follow? {reached parts names : List Text}
    (h : follow? reached (parts.filterMap stepOf?) = some names) : names = parts.foldl Disk.follow reached.reverse := by
  induction parts generalizing reached with
  | nil => simpa [follow?] using h.symm
  | cons part parts ih =>
    rw [List.foldl_cons, Disk.follow]
    by_cases hhere : part = ['.']
    · rw [List.filterMap_cons_none (by simp [stepOf?, hhere])] at h
      rw [if_pos hhere]
      exact ih h
    · by_cases hparent : part = ['.', '.']
      · rw [List.filterMap_cons_some (b := .parent) (by simp [stepOf?, hparent])] at h
        rw [if_neg hhere, if_pos hparent]
        cases reached with
        | nil => simp [follow?] at h
        | cons n reached => simpa using ih h
      · rw [List.filterMap_cons_some (b := .name part) (by simp [stepOf?, hhere, hparent])] at h
        rw [if_neg hhere, if_neg hparent]
        simpa using ih h

/-! ## Confined names -/

theorem isSome_confined?_iff (path : Text) : (confined? path).isSome = true ↔ isAbsolute path = false ∧
    ∀ front, front <+: steps path → front.count .parent ≤ front.countP Step.isName := by
  rw [confined?, isSome_follow?_iff, root_mem_steps, Bool.not_eq_true]
  simp [StaysWithin]

theorem confined?_ofNames {names : List Text} (h : ∀ name ∈ names, IsName name) :
    confined? (ofNames names) = some names := by
  rw [confined?, steps_ofNames h, follow?_map_name, List.reverse_nil, List.nil_append]

theorem eq_foldl_of_confined? {path : Text} {names : List Text} (h : confined? path = some names) :
    names = (parts path).foldl Disk.follow [] := by
  have hrelative : isAbsolute path = false := ((isSome_confined?_iff path).1 (by simp [h])).1
  rw [confined?, steps_of_relative hrelative] at h
  exact eq_foldl_of_follow? h

theorem confined?_join {path : Text} {names : List Text} (h : confined? path = some names) (other : Text) :
    confined? (join path other) = confined? (join (ofNames names) other) := by
  by_cases hother : isAbsolute other = true
  · simp [join, hother]
  · rw [Bool.not_eq_true] at hother
    have hnames : confined? (ofNames names) = some names := confined?_ofNames (isName_of_confined h)
    rw [confined?] at h hnames
    rw [confined?, confined?, steps_join path hother, steps_join _ hother, follow?_append, follow?_append, h, hnames]

/-- A path name is confined exactly if it is relative and no beginning of its steps climbs more often than it
descends; others are refused. What a confined name leads through are names that stand for themselves, in the order in
which its parts lead there: they are confined to themselves, a source and a page lie below their directories by just
these steps, and seen from them every name is refused or leads where it leads from the name itself. -/
theorem confined_sound (path : Text) :
    ((confined? path).isSome = true ↔ isAbsolute path = false ∧
      ∀ front, front <+: steps path → front.count .parent ≤ front.countP Step.isName) ∧
    (confined? path = none → (∀ base, Library.pathOf base path = .error (.outside path)) ∧
      ∀ arguments : Arguments, arguments.destination path = .error (.outside path)) ∧
    ∀ names, confined? path = some names →
      ((∀ name ∈ names, IsName name) ∧ names = (parts path).foldl Disk.follow []) ∧
      (steps (ofNames names) = names.map .name ∧ confined? (ofNames names) = some names) ∧
      (∀ base, Library.pathOf base path = .ok (join base (ofNames names)) ∧
        steps (join base (ofNames names)) = steps base ++ names.map .name) ∧
      (∀ arguments : Arguments,
        arguments.destination path = .ok (join arguments.outputDirectory (ofNames names))) ∧
      ∀ other, confined? (join path other) = confined? (join (ofNames names) other) := by
  refine ⟨isSome_confined?_iff path, fun h => ⟨fun base => ?_, fun arguments => ?_⟩, fun names h => ?_⟩
  · rw [Library.pathOf, h]
  · rw [Arguments.destination, h]
  · have hnames := isName_of_confined h
    have hsteps := steps_ofNames hnames
    refine ⟨⟨hnames, eq_foldl_of_confined? h⟩, ⟨hsteps, confined?_ofNames hnames⟩, fun base => ⟨?_, ?_⟩,
      fun arguments => ?_, confined?_join h⟩
    · rw [Library.pathOf, h]
    · rw [steps_join base (isAbsolute_ofNames hnames), hsteps]
    · rw [Arguments.destination, h]

/-- A name that climbs twice, and one that is refused although it comes back down. -/
theorem confined_sound_climbing :
    let path := "./a//b/.././../c/".toList
    let other := "../../d".toList
    confined? path = some [['c']] ∧ (∀ name ∈ [['c']], IsName name) ∧
      confined? (join path other) = confined? (join (ofNames [['c']]) other) ∧
      confined? (join path other) = none ∧ confined? "../b/c/d".toList = none := by
  intro path other
  have h : confined? path = some [['c']] := by decide +kernel
  obtain ⟨-, -, hconfined⟩ := confined_sound path
  obtain ⟨⟨hnames, -⟩, -, -, -, hjoin⟩ := hconfined _ h
  exact ⟨h, hnames, hjoin other, by decide +kernel, by decide +kernel⟩

end HtmlTemplate.PathName
