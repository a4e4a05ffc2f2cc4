import HtmlTemplate.Files.Disk
import Mathlib

/-!
# What writing does to a disk

A path name that can be followed leads where its parts lead when they are read without the disk
(`Disk.locationOf`). Making directories adds directories where nothing stood and does nothing else (`Disk.Grown`),
whether it comes to its end or not. Writing a file makes directories above it and sets one entry besides
(`Disk.written_of_write`). All of this holds on any disk, also on one where files stand above files.
-/

namespace HtmlTemplate

/-! ## Path names -/

namespace PathName

/-- A name that stands for itself in a path name. -/
structure IsName (name : Text) : Prop where
  ne_nil : name ≠ []
  not_slash : '/' ∉ name
  ne_here : name ≠ ['.']
  ne_parent : name ≠ ['.', '.']

@[simp] theorem parts_nil : parts [] = [] := by
  simp [parts]

theorem parts_append_cons (s t : Text) : parts (s ++ '/' :: t) = parts s ++ parts t := by
  rw [parts, List.splitOn, List.splitOnP_append_cons s t (by simp), List.filter_append]
  rfl

theorem parts_of_not_slash {path : Text} (h : '/' ∉ path) : parts path = if path = [] then [] else [path] := by
  have hsplit : path.splitOn '/' = [path] := by
    refine List.splitOnP_eq_singleton fun c hc => beq_false_of_ne fun hslash => h ?_
    rwa [hslash] at hc
  rw [parts, hsplit]
  cases path <;> simp

theorem mem_parts {path part : Text} (h : part ∈ parts path) : part ≠ [] ∧ '/' ∉ part := by
  induction hn : path.length using Nat.strong_induction_on generalizing path with
  | _ n ih =>
    by_cases hslash : '/' ∈ path
    · obtain ⟨s, t, rfl⟩ := List.append_of_mem hslash
      simp only [List.length_append, List.length_cons] at hn
      rw [parts_append_cons, List.mem_append] at h
      obtain h | h := h
      · exact ih s.length (by omega) h rfl
      · exact ih t.length (by omega) h rfl
    · rw [parts_of_not_slash hslash] at h
      split at h
      · simp at h
      · rw [List.mem_singleton] at h
        exact ⟨h ▸ ‹path ≠ []›, h ▸ hslash⟩

theorem parts_ofNames {names : List Text} (h : ∀ name ∈ names, IsName name) : parts (ofNames names) = names := by
  by_cases hne : names = []
  · simp [hne, ofNames]
  · have hslash : ∀ name ∈ names, '/' ∉ name := fun name hname => (h name hname).not_slash
    rw [parts, ofNames, List.splitOn_intercalate '/' hslash hne]
    refine List.filter_eq_self.2 fun name hname => ?_
    simpa using (h name hname).ne_nil

theorem isAbsolute_ofNames {names : List Text} (h : ∀ name ∈ names, IsName name) :
    isAbsolute (ofNames names) = false := by
  cases names with
  | nil => rfl
  | cons name names =>
    obtain ⟨c, rest, hname⟩ := List.exists_cons_of_ne_nil (h name (by simp)).ne_nil
    have hc : c ≠ '/' := fun hc => (h name (by simp)).not_slash (by simp [hname, hc])
    have hhead : (ofNames (name :: names)).head? = some c := by
      cases names <;> simp [ofNames, hname, List.intercalate]
    simp [isAbsolute, hhead, hc]

theorem join_append_singleton (base : Text) (c : Char) {path : Text} (h : isAbsolute path = false) :
    join (base ++ [c]) path = (if c = '/' then base else base ++ [c]) ++ '/' :: path := by
  by_cases hc : c = '/' <;> simp [join, h, hc]

theorem isAbsolute_append {base : Text} (h : base ≠ []) (path : Text) :
    isAbsolute (base ++ path) = isAbsolute base := by
  rw [isAbsolute, List.head?_append_of_ne_nil _ h, isAbsolute]

theorem isAbsolute_join (base : Text) {path : Text} (h : isAbsolute path = false) :
    isAbsolute (join base path) = isAbsolute base := by
  obtain rfl | ⟨front, c, rfl⟩ := base.eq_nil_or_concat
  · rw [show join [] path = path by simp [join], h]
    rfl
  · rw [List.concat_eq_append, join_append_singleton front c h]
    split
    · next hc =>
      rw [hc, List.append_cons]
      exact isAbsolute_append (by simp) path
    · exact isAbsolute_append (by simp) _

theorem parts_join (base : Text) {path : Text} (h : isAbsolute path = false) :
    parts (join base path) = parts base ++ parts path := by
  obtain rfl | ⟨front, c, rfl⟩ := base.eq_nil_or_concat
  · simp [join]
  · rw [List.concat_eq_append, join_append_singleton front c h, parts_append_cons]
    split
    · next hc => rw [hc, parts_append_cons, parts_nil, List.append_nil]
    · rfl

/-! ### Confined path names -/

theorem isName_of_stepOf {part name : Text} (h : stepOf? part = some (.name name)) (hne : part ≠ [])
    (hslash : '/' ∉ part) : IsName name := by
  unfold stepOf? at h
  split at h
  · simp at h
  · split at h
    · simp at h
    · obtain rfl : part = name := by simpa using h
      exact ⟨hne, hslash, ‹_›, ‹_›⟩

theorem isName_of_mem_steps {path name : Text} (h : Step.name name ∈ steps path) : IsName name := by
  rw [steps, List.mem_append] at h
  obtain h | h := h
  · split at h <;> simp at h
  · obtain ⟨part, hpart, hstep⟩ := List.mem_filterMap.1 h
    obtain ⟨hne, hslash⟩ := mem_parts hpart
    exact isName_of_stepOf hstep hne hslash

theorem forall_of_follow {p : Text → Prop} {reached : List Text} {steps : List Step} {names : List Text}
    (h : follow? reached steps = some names) (hreached : ∀ name ∈ reached, p name)
    (hsteps : ∀ name, Step.name name ∈ steps → p name) : ∀ name ∈ names, p name := by
  fun_induction follow? reached steps with
  | case1 reached =>
    obtain rfl : reached.reverse = names := by simpa using h
    simpa using hreached
  | case2 reached n rest ih =>
    apply ih h
    · exact List.forall_mem_cons.2 ⟨hsteps n (by simp), hreached⟩
    · exact fun name hname => hsteps name (List.mem_cons_of_mem _ hname)
  | case3 n reached rest ih =>
    apply ih h
    · exact fun name hname => hreached name (List.mem_cons_of_mem _ hname)
    · exact fun name hname => hsteps name (List.mem_cons_of_mem _ hname)
  | case4 rest => simp at h
  | case5 reached rest => simp at h

theorem isName_of_confined {path : Text} {names : List Text} (h : confined? path = some names) :
    ∀ name ∈ names, IsName name :=
  forall_of_follow h (by simp) fun _ => isName_of_mem_steps

end PathName

namespace Disk

/-! ## Entries -/

theorem lookup_setEntry (location : Location) (entry : Entry) (entries : List (Location × Entry)) (l : Location) :
    (setEntry location entry entries).lookup l = if l = location then some entry else entries.lookup l := by
  induction entries with
  | nil =>
    by_cases h : l = location
    · simp [setEntry, h]
    · simp [setEntry, List.lookup_cons, beq_false_of_ne h, h]
  | cons first rest ih =>
    obtain ⟨l', e⟩ := first
    unfold setEntry
    by_cases hl' : l' = location
    · by_cases h : l = location
      · simp [hl', h]
      · simp [List.lookup_cons, hl', beq_false_of_ne h, h]
    · by_cases h : l = l'
      · simp [hl', h]
      · simp [List.lookup_cons, hl', beq_false_of_ne h, ih]

theorem get?_put {location : Location} (h : location ≠ []) (disk : Disk) (entry : Entry) (l : Location) :
    Disk.get? (disk.put location entry) l = if l = location then some entry else disk.get? l := by
  by_cases hl : l = []
  · simp [get?, hl, h.symm]
  · simp [get?, put, hl, lookup_setEntry]

@[simp] theorem get?_nil (disk : Disk) : disk.get? [] = some .directory := by
  simp [get?]

/-! ## Where path names lead -/

/-- Whether a beginning of the steps leads from the root to a location. -/
def LeadsThrough (steps : List Text) (l : Location) : Prop :=
  ∃ front, front <+: steps ∧ l = front.foldl follow []

theorem LeadsThrough.mono {steps more : List Text} {l : Location} (h : LeadsThrough steps l)
    (hsteps : steps <+: more) : LeadsThrough more l := by
  obtain ⟨front, hfront, hl⟩ := h
  exact ⟨front, hfront.trans hsteps, hl⟩

/-- The location that a path name leads to, read without following it. -/
def locationOf (disk : Disk) (path : Text) : Location := (disk.absoluteParts path).foldl follow []

theorem foldl_follow_filter (names : List Text) (start : Location) :
    (names.filter (· ≠ ['.'])).foldl follow start = names.foldl follow start := by
  induction names generalizing start with
  | nil => simp
  | cons name names ih =>
    by_cases h : name = ['.']
    · rw [List.filter_cons_of_neg (by simp [h]), ih, List.foldl_cons, follow, if_pos h]
    · rw [List.filter_cons_of_pos (by simp [h]), List.foldl_cons, List.foldl_cons, ih]

theorem foldl_follow {names : List Text} (h : ∀ name ∈ names, name ≠ ['.'] ∧ name ≠ ['.', '.'])
    (start : Location) : names.foldl follow start = start ++ names := by
  induction names generalizing start with
  | nil => simp
  | cons name names ih =>
    obtain ⟨⟨hhere, hparent⟩, hnames⟩ := List.forall_mem_cons.1 h
    rw [List.foldl_cons, ih hnames, follow, if_neg hhere, if_neg hparent, List.append_assoc, List.singleton_append]

theorem eq_foldl_of_walk {disk : Disk} {start location : Location} {names : List Text}
    (h : disk.walk start names = .ok location) : location = names.foldl follow start := by
  induction names generalizing start with
  | nil => simpa [walk] using h.symm
  | cons name names ih =>
    rw [List.foldl_cons, follow]
    unfold walk at h
    split at h
    · simp at h
    · simp at h
    · split at h
      · rw [if_pos ‹_›]
        exact ih h
      · rw [if_neg ‹_›]
        split at h
        · rw [if_pos ‹_›]
          exact ih h
        · rw [if_neg ‹_›]
          split at h
          · simp at h
          · exact ih h

theorem absoluteParts_join (disk : Disk) (base : Text) {names : List Text}
    (h : ∀ name ∈ names, PathName.IsName name) :
    disk.absoluteParts (PathName.join base (PathName.ofNames names)) = disk.absoluteParts base ++ names := by
  have hrelative := PathName.isAbsolute_ofNames h
  rw [absoluteParts, PathName.isAbsolute_join base hrelative, PathName.parts_join base hrelative,
    PathName.parts_ofNames h, ← List.append_assoc, absoluteParts]

theorem locationOf_join (disk : Disk) (base : Text) {names : List Text}
    (h : ∀ name ∈ names, PathName.IsName name) :
    disk.locationOf (PathName.join base (PathName.ofNames names)) = disk.locationOf base ++ names := by
  have hnames : ∀ name ∈ names, name ≠ ['.'] ∧ name ≠ ['.', '.'] :=
    fun name hname => ⟨(h name hname).ne_here, (h name hname).ne_parent⟩
  rw [locationOf, absoluteParts_join disk base h, List.foldl_append, foldl_follow hnames, locationOf]

theorem locationOf_congr {disk later : Disk} (h : later.here = disk.here) (path : Text) :
    later.locationOf path = disk.locationOf path := by
  simp only [locationOf, absoluteParts, h]

/-! ## Making directories -/

/-- The later disk has the entries of the earlier one, and besides them only directories, at locations in
`fresh` where nothing stood. -/
structure Grown (fresh : Location → Prop) (disk later : Disk) : Prop where
  here : later.here = disk.here
  entry (l : Location) : later.get? l = disk.get? l ∨
    (fresh l ∧ disk.get? l = none ∧ later.get? l = some .directory)

namespace Grown

variable {fresh fresh' : Location → Prop} {disk middle later : Disk}

theorem refl (disk : Disk) : Grown fresh disk disk := ⟨rfl, fun _ => .inl rfl⟩

theorem mono (h : Grown fresh disk later) (himp : ∀ l, fresh l → fresh' l) : Grown fresh' disk later := by
  refine ⟨h.here, fun l => ?_⟩
  obtain same | ⟨hfresh, hnone, hdir⟩ := h.entry l
  · exact .inl same
  · exact .inr ⟨himp l hfresh, hnone, hdir⟩

theorem trans (first : Grown fresh disk middle) (second : Grown fresh middle later) : Grown fresh disk later := by
  refine ⟨second.here.trans first.here, fun l => ?_⟩
  obtain same | ⟨hfresh, hnone, hdir⟩ := first.entry l
  · rw [← same]
    exact second.entry l
  · obtain same | ⟨-, hnone', -⟩ := second.entry l
    · exact .inr ⟨hfresh, hnone, same.trans hdir⟩
    · simp [hdir] at hnone'

end Grown

theorem grown_of_makeDirectory {disk later : Disk} {names : List Text} (h : disk.makeDirectory names = .ok later) :
    Grown (· = names.foldl follow []) disk later := by
  unfold makeDirectory at h
  split at h
  · simp at h
  · split at h
    · simp at h
    · split at h
      · simp at h
      · rename_i location hwalk
        split at h
        · simp at h
        · rename_i hentry
          obtain rfl : disk.put location .directory = later := by simpa using h
          have hnone : disk.get? location = none := by simpa using hentry
          have hne : location ≠ [] := by
            rintro rfl
            simp at hnone
          refine ⟨rfl, fun l => ?_⟩
          rw [get?_put hne]
          by_cases hl : l = location
          · exact .inr ⟨hl.trans (eq_foldl_of_walk hwalk), hl ▸ hnone, if_pos hl⟩
          · exact .inl (if_neg hl)

theorem grown_ensureDirectory (disk : Disk) (names : List Text) :
    Grown (· = names.foldl follow []) disk (disk.ensureDirectory names).1 := by
  unfold ensureDirectory
  split
  · exact grown_of_makeDirectory ‹_›
  · exact .refl disk

/-- Directories appear only where a beginning of the names leads. -/
theorem grown_ensureDirectories (disk : Disk) (innermostFirst : List Text) :
    Grown (LeadsThrough innermostFirst.reverse) disk (disk.ensureDirectories innermostFirst).1 := by
  induction innermostFirst generalizing disk with
  | nil => exact .refl disk
  | cons name above ih =>
    have hshorter : above.reverse <+: (name :: above).reverse := by
      rw [List.reverse_cons]
      exact List.prefix_append _ _
    have step (disk : Disk) : Grown (LeadsThrough (name :: above).reverse) disk
        (disk.ensureDirectory (name :: above).reverse).1 :=
      (grown_ensureDirectory disk _).mono fun l hl => ⟨_, List.prefix_rfl, hl⟩
    have hrec := (ih disk).mono fun l hl => hl.mono hshorter
    unfold ensureDirectories
    simp only
    split
    · -- the directory could not be made at first: those above it are, and then it is tried again
      split
      · rename_i hmade
        rwa [hmade] at hrec
      · rename_i made hmade
        rw [hmade] at hrec
        exact hrec.trans (step made)
    · exact step disk

/-! ## Writing files -/

theorem writeFile_ok {disk later : Disk} {path content : Text} (h : disk.writeFile path content = .ok later) :
    path ≠ [] ∧ path.getLast? ≠ some '/' ∧ disk.locationOf path ≠ [] ∧
      later = disk.put (disk.locationOf path) (.file (encode content)) := by
  unfold writeFile at h
  simp only at h
  split at h
  · simp at h
  · split at h
    · simp at h
    · rename_i location hwalk
      split at h
      · simp at h
      · rename_i hplain
        simp only [Bool.or_eq_true, not_or, decide_eq_true_eq, List.isEmpty_iff, beq_iff_eq] at hplain hwalk
        obtain ⟨⟨hne, hslash⟩, hentry⟩ := hplain
        rw [if_neg (by simp [hne, hslash])] at hwalk
        obtain rfl : location = disk.locationOf path := eq_foldl_of_walk hwalk
        refine ⟨hne, hslash, fun hroot => hentry (by simp [hroot]), ?_⟩
        simpa using h.symm

/-- Whether a proper beginning of a path name leads to a location. -/
def Above (disk : Disk) (path : Text) (l : Location) : Prop :=
  LeadsThrough ((disk.absoluteParts path).filter (· ≠ ['.'])).dropLast l

/-- The later disk holds a file where the path name leads, new directories only above it, and is otherwise
as the earlier one. -/
structure Written (path content : Text) (disk later : Disk) : Prop where
  here : later.here = disk.here
  ne_nil : path ≠ []
  not_slash : path.getLast? ≠ some '/'
  file : later.get? (disk.locationOf path) = some (.file (encode content))
  entry (l : Location) : later.get? l = disk.get? l ∨ l = disk.locationOf path ∨
    (disk.Above path l ∧ disk.get? l = none ∧ later.get? l = some .directory)

theorem written_of_write {disk later : Disk} {path content : Text} (h : disk.write path content = (later, .ok ())) :
    Written path content disk later := by
  unfold write at h
  simp only at h
  have hgrown := grown_ensureDirectories disk ((disk.absoluteParts path).filter (· ≠ ['.'])).dropLast.reverse
  rw [List.reverse_reverse] at hgrown
  split at h
  · simp at h
  · rename_i made hmade
    rw [hmade] at hgrown
    split at h
    · simp at h
    · rename_i written hwrite
      obtain rfl : written = later := by simpa using h
      obtain ⟨hne, hslash, hroot, rfl⟩ := writeFile_ok hwrite
      rw [locationOf_congr hgrown.here] at hroot ⊢
      refine ⟨hgrown.here, hne, hslash, ?_, fun l => ?_⟩
      · rw [get?_put hroot, if_pos rfl]
      · rw [get?_put hroot]
        by_cases hl : l = disk.locationOf path
        · exact .inr (.inl hl)
        · rw [if_neg hl]
          obtain same | new := hgrown.entry l
          · exact .inl same
          · exact .inr (.inr new)

/-- The directories above a name in a base lead to it, save those that are passed through where the base climbs. -/
theorem above_join {disk : Disk} {base : Text} {names : List Text} {l : Location}
    (h : disk.Above (PathName.join base (PathName.ofNames names)) l)
    (hnames : ∀ name ∈ names, PathName.IsName name) (hne : names ≠ []) :
    (l <+: disk.locationOf base ++ names ∧ l ≠ disk.locationOf base ++ names) ∨
      (['.', '.'] ∈ disk.absoluteParts base ∧ LeadsThrough (disk.absoluteParts base) l) := by
  obtain ⟨steps, hsteps, rfl⟩ := h
  have hplain : ∀ name ∈ names, name ≠ ['.'] ∧ name ≠ ['.', '.'] :=
    fun name hname => ⟨(hnames name hname).ne_here, (hnames name hname).ne_parent⟩
  have hkept : names.filter (· ≠ ['.']) = names :=
    List.filter_eq_self.2 fun name hname => decide_eq_true (hplain name hname).1
  rw [absoluteParts_join disk base hnames, List.filter_append, hkept, List.dropLast_append_of_ne_nil hne] at hsteps
  have hbase : ((disk.absoluteParts base).filter (· ≠ ['.'])).foldl follow [] = disk.locationOf base :=
    foldl_follow_filter _ _
  generalize hroot : (disk.absoluteParts base).filter (· ≠ ['.']) = root at hsteps hbase
  have hpos : 0 < names.length := List.length_pos_of_ne_nil hne
  obtain hshort | ⟨more, rfl⟩ := List.prefix_or_prefix_of_prefix hsteps (List.prefix_append root _)
  · by_cases hclimbs : ['.', '.'] ∈ disk.absoluteParts base
    · obtain ⟨rest, hrest⟩ := hshort
      obtain ⟨front, back, hparts, hfront, -⟩ := List.filter_eq_append_iff.1 (hroot.trans hrest.symm)
      refine .inr ⟨hclimbs, front, hparts ▸ List.prefix_append _ _, ?_⟩
      rw [← hfront, foldl_follow_filter]
    · -- without climbing every step of the base is a name, so its beginnings lead to prefixes of where it leads
      have hroot' : ∀ name ∈ root, name ≠ ['.'] ∧ name ≠ ['.', '.'] := by
        intro name hname
        rw [← hroot, List.mem_filter] at hname
        exact ⟨of_decide_eq_true hname.2, fun heq => hclimbs (heq ▸ hname.1)⟩
      rw [foldl_follow hroot', List.nil_append] at hbase
      rw [foldl_follow fun name hname => hroot' name (hshort.subset hname), List.nil_append, ← hbase]
      refine .inl ⟨hshort.trans (List.prefix_append _ _), fun heq => ?_⟩
      have hlength := hshort.length_le
      rw [heq, List.length_append] at hlength
      omega
  · rw [List.prefix_append_right_inj] at hsteps
    have hmore : ∀ name ∈ more, name ≠ ['.'] ∧ name ≠ ['.', '.'] :=
      fun name hname => hplain name (List.dropLast_subset _ (hsteps.subset hname))
    rw [List.foldl_append, hbase, foldl_follow hmore, List.prefix_append_right_inj]
    refine .inl ⟨hsteps.trans (List.dropLast_prefix names), fun heq => ?_⟩
    have hlength := hsteps.length_le
    rw [List.append_cancel_left heq, List.length_dropLast] at hlength
    omega

end Disk
end HtmlTemplate
