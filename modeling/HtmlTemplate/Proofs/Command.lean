import HtmlTemplate.Command.Run
import HtmlTemplate.Proofs.Files

/-!
# Runs read first and write last

A run renders all its templates from the disk as it finds it, and only then writes. If anything fails before that
the disk stays as it is; after that only writing can fail (`Arguments.run_isolated`). A run that comes to its end
has changed the files of its templates and nothing else: each holds what its template renders to on the disk
before the run, and the last of several templates with one file wins. New directories lead to these files. Only
where the output directory is named with a step to a parent may others appear, those that the name goes through.
-/

namespace HtmlTemplate

/-! ## Writing pages -/

namespace Page

/-- What writing pages one after the other does to a disk: the files of the pages and directories above them are
all that changes, and the last page of a file is what it holds. -/
structure Written (pages : List Page) (disk later : Disk) : Prop where
  here : later.here = disk.here
  destination : ∀ page ∈ pages, page.destination ≠ [] ∧ page.destination.getLast? ≠ some '/'
  file : ∀ before page after, pages = before ++ page :: after →
    (∀ other ∈ after, disk.locationOf other.destination ≠ disk.locationOf page.destination) →
    later.get? (disk.locationOf page.destination) = some (.file (Disk.encode page.html))
  entry (l : Location) : later.get? l = disk.get? l ∨
    (∃ page ∈ pages, l = disk.locationOf page.destination) ∨
    (disk.get? l = none ∧ later.get? l = some .directory ∧ ∃ page ∈ pages, disk.Above page.destination l)

namespace Written

variable {page : Page} {pages : List Page} {disk middle later : Disk}

theorem nil (disk : Disk) : Written [] disk disk where
  here := rfl
  destination := by simp
  file := by simp
  entry _ := .inl rfl

theorem entry_of_some (h : Written pages disk later) {l : Location} {entry : Entry}
    (hentry : disk.get? l = some entry) (hl : ∀ page ∈ pages, disk.locationOf page.destination ≠ l) :
    later.get? l = some entry := by
  obtain same | ⟨page, hpage, rfl⟩ | ⟨hnone, -⟩ := h.entry l
  · exact same.trans hentry
  · exact absurd rfl (hl page hpage)
  · simp [hentry] at hnone

theorem cons (first : Disk.Written page.destination page.html disk middle) (rest : Written pages middle later) :
    Written (page :: pages) disk later := by
  have hlocation : ∀ path, middle.locationOf path = disk.locationOf path := Disk.locationOf_congr first.here
  have habove : ∀ path l, middle.Above path l ↔ disk.Above path l := fun path l => by
    simp only [Disk.Above, Disk.absoluteParts, first.here]
  refine ⟨rest.here.trans first.here, ?_, ?_, fun l => ?_⟩
  · exact List.forall_mem_cons.2 ⟨⟨first.ne_nil, first.not_slash⟩, rest.destination⟩
  · -- the first page stays as no later page has its place; any other page is one of the rest
    intro before written after hpages hafter
    obtain _ | ⟨page', before⟩ := before
    · obtain ⟨rfl, rfl⟩ : page = written ∧ pages = after := by simpa using hpages
      apply rest.entry_of_some first.file
      simpa only [hlocation] using hafter
    · obtain ⟨rfl, rfl⟩ : page = page' ∧ pages = before ++ written :: after := by simpa using hpages
      rw [← hlocation]
      apply rest.file before written after rfl
      simpa only [hlocation] using hafter
  · -- where the rest makes a directory nothing stood in between, so the first page has made none there
    obtain same | ⟨other, hother, hl⟩ | ⟨hnone, hdir, other, hother, hl⟩ := rest.entry l
    · obtain same' | hl | ⟨hl, hnone, hdir⟩ := first.entry l
      · exact .inl (same.trans same')
      · exact .inr (.inl ⟨page, by simp, hl⟩)
      · exact .inr (.inr ⟨hnone, same.trans hdir, page, by simp, hl⟩)
    · exact .inr (.inl ⟨other, by simp [hother], hl.trans (hlocation _)⟩)
    · obtain same' | hl' | ⟨-, -, hdir'⟩ := first.entry l
      · exact .inr (.inr ⟨same' ▸ hnone, hdir, other, by simp [hother], (habove _ _).1 hl⟩)
      · exact .inr (.inl ⟨page, by simp, hl'⟩)
      · simp [hnone] at hdir'

end Written

theorem written_of_writeAll {pages : List Page} {disk later : Disk} (h : writeAll disk pages = (later, .ok ())) :
    Written pages disk later := by
  induction pages generalizing disk with
  | nil =>
    obtain rfl : disk = later := by simpa [writeAll] using h
    exact .nil disk
  | cons page pages ih =>
    unfold writeAll at h
    split at h
    · simp at h
    · exact .cons (Disk.written_of_write ‹_›) (ih h)

/-- Writing pages fails only where writing one of them does. -/
theorem exists_write_of_writeAll {pages : List Page} {disk later : Disk} {e : Error}
    (h : writeAll disk pages = (later, .error e)) : ∃ page ∈ pages, ∃ (middle : Disk) (cause : FileFailure),
      middle.write page.destination page.html = (later, .error cause) ∧ e = .file cause := by
  induction pages generalizing disk with
  | nil => simp [writeAll] at h
  | cons page pages ih =>
    unfold writeAll at h
    split at h
    · rename_i failed cause hwrite
      obtain ⟨rfl, rfl⟩ : failed = later ∧ Error.file cause = e := by simpa using h
      exact ⟨page, by simp, disk, cause, hwrite, rfl⟩
    · obtain ⟨other, hother, hfails⟩ := ih h
      exact ⟨other, by simp [hother], hfails⟩

end Page

namespace Arguments

variable {arguments : Arguments} {disk later : Disk} {stdin : ByteArray} {config : Config} {data : Value}

/-! ## Rendering -/

/-- A template has a place in the output directory and renders, on this disk. -/
structure Renders (arguments : Arguments) (disk : Disk) (config : Config) (data : Value) (template : Text)
    (names : List Text) (html : Text) : Prop where
  confined : PathName.confined? template = some names
  rendered : (Engine.ofConfig (arguments.library disk) config).renderSource (.file template) data
    (arguments.stylesheets.map .file) = .ok html

/-- The page of a template, if the template has a place and renders. -/
def page (arguments : Arguments) (disk : Disk) (config : Config) (data : Value) (template : Text) : Page :=
  ⟨PathName.join arguments.outputDirectory (PathName.ofNames ((PathName.confined? template).getD [])),
    ((Engine.ofConfig (arguments.library disk) config).renderSource (.file template) data
      (arguments.stylesheets.map .file)).toOption.getD []⟩

theorem Renders.page_eq {template : Text} {names : List Text} {html : Text}
    (h : arguments.Renders disk config data template names html) :
    arguments.page disk config data template =
      ⟨PathName.join arguments.outputDirectory (PathName.ofNames names), html⟩ := by
  simp [page, h.confined, h.rendered, Except.toOption]

theorem renderAll_eq_ok {templates : List Text} {pages : List Page} :
    arguments.renderAll (.ofConfig (arguments.library disk) config) data templates = .ok pages ↔
      (∀ template ∈ templates, ∃ names html, arguments.Renders disk config data template names html) ∧
        pages = templates.map (arguments.page disk config data) := by
  induction templates generalizing pages with
  | nil => simp [renderAll, eq_comm]
  | cons template templates ih =>
    rw [List.forall_mem_cons, List.map_cons, renderAll, destination]
    cases hconfined : PathName.confined? template with
    | none =>
      simp only [bind, Except.bind, reduceCtorEq, false_iff]
      rintro ⟨⟨⟨names, html, h⟩, -⟩, -⟩
      simp [h.confined] at hconfined
    | some names =>
      simp only [bind, Except.bind]
      split
      · rename_i hfails
        simp only [reduceCtorEq, false_iff]
        rintro ⟨⟨⟨names, html, h⟩, -⟩, -⟩
        simp [h.rendered] at hfails
      · rename_i html hhtml
        have hrenders : arguments.Renders disk config data template names html := ⟨hconfined, hhtml⟩
        rw [hrenders.page_eq]
        split
        · rename_i hrest
          simp only [reduceCtorEq, false_iff]
          rintro ⟨⟨-, hall⟩, -⟩
          rw [ih.2 ⟨hall, rfl⟩] at hrest
          simp at hrest
        · rename_i rest hrest
          obtain ⟨hall, rfl⟩ := ih.1 hrest
          constructor
          · intro h
            exact ⟨⟨⟨names, html, hrenders⟩, hall⟩, by simpa [pure, Except.pure] using h.symm⟩
          · rintro ⟨-, rfl⟩
            rfl

/-- Everything goes well that a run does before it writes, all of it on the disk that the run starts from. -/
structure Ready (arguments : Arguments) (disk : Disk) (stdin : ByteArray) (config : Config) (data : Value) :
    Prop where
  output : disk.checkOutput arguments.outputDirectory arguments.force = .ok ()
  loads : Config.loadOrDefault disk arguments.templatesDirectory = .ok config
  collects : Input.collect disk stdin arguments.data arguments.dataFile = .ok data
  renders : ∀ template ∈ arguments.templates, ∃ names html,
    arguments.Renders disk config data template names html

theorem pages_eq_ok {pages : List Page} : arguments.pages disk stdin = .ok pages ↔
    ∃ config data, arguments.Ready disk stdin config data ∧
      pages = arguments.templates.map (arguments.page disk config data) := by
  constructor
  · intro h
    simp only [Arguments.pages, bind, Except.bind] at h
    split at h
    · simp at h
    · rename_i houtput
      split at h
      · simp at h
      · rename_i config hconfig
        split at h
        · simp at h
        · rename_i data hdata
          obtain ⟨hall, hpages⟩ := renderAll_eq_ok.1 h
          exact ⟨config, data, ⟨houtput, hconfig, hdata, hall⟩, hpages⟩
  · rintro ⟨config, data, hready, hpages⟩
    simp only [Arguments.pages, bind, Except.bind, hready.output, hready.loads, hready.collects]
    exact renderAll_eq_ok.2 ⟨hready.renders, hpages⟩

/-! ## Runs -/

/-- Where the file with these names is in the output directory. -/
def fileOf (arguments : Arguments) (disk : Disk) (names : List Text) : Location :=
  disk.locationOf arguments.outputDirectory ++ names

/-- Where a run may make directories for a file: on the way down to it, or, if the output directory is named with
a step to a parent, wherever that name leads through. -/
def MayMake (arguments : Arguments) (disk : Disk) (names : List Text) (l : Location) : Prop :=
  (l <+: arguments.fileOf disk names ∧ l ≠ arguments.fileOf disk names) ∨
    (['.', '.'] ∈ disk.absoluteParts arguments.outputDirectory ∧
      Disk.LeadsThrough (disk.absoluteParts arguments.outputDirectory) l)

/-- The files of the templates, and directories for them, are all that is not as before, and each file holds what
the last of its templates renders to on the disk as it was before. -/
structure Outputs (arguments : Arguments) (disk : Disk) (config : Config) (data : Value) (later : Disk) : Prop where
  file : ∀ before template after, arguments.templates = before ++ template :: after →
    (∀ other ∈ after, PathName.confined? other ≠ PathName.confined? template) →
    ∃ names html, arguments.Renders disk config data template names html ∧
      later.get? (arguments.fileOf disk names) = some (.file (Disk.encode html))
  entry (l : Location) : later.get? l = disk.get? l ∨
    ∃ template ∈ arguments.templates, ∃ names, PathName.confined? template = some names ∧
      (l = arguments.fileOf disk names ∨
        (disk.get? l = none ∧ later.get? l = some .directory ∧ arguments.MayMake disk names l))

theorem Renders.locationOf_page {template : Text} {names : List Text} {html : Text}
    (h : arguments.Renders disk config data template names html) :
    disk.locationOf (arguments.page disk config data template).destination = arguments.fileOf disk names := by
  rw [h.page_eq]
  exact Disk.locationOf_join disk _ (PathName.isName_of_confined h.confined)

theorem Renders.confined_eq_of_locationOf {template template' : Text} {names names' : List Text} {html html' : Text}
    (h : arguments.Renders disk config data template names html)
    (h' : arguments.Renders disk config data template' names' html')
    (hlocation : disk.locationOf (arguments.page disk config data template).destination =
      disk.locationOf (arguments.page disk config data template').destination) :
    PathName.confined? template = PathName.confined? template' := by
  rw [h.locationOf_page, h'.locationOf_page] at hlocation
  rw [h.confined, h'.confined, List.append_cancel_left hlocation]

theorem names_ne_nil {names : List Text}
    (h : PathName.join arguments.outputDirectory (PathName.ofNames names) ≠ [])
    (hslash : (PathName.join arguments.outputDirectory (PathName.ofNames names)).getLast? ≠ some '/') :
    names ≠ [] := by
  rintro rfl
  unfold PathName.join at h hslash
  split at h
  · exact h rfl
  · rw [if_neg ‹_›] at hslash
    split at hslash
    · exact hslash (by simpa [PathName.ofNames] using ‹_›)
    · exact hslash (by simp [PathName.ofNames])

theorem outputs_of_written (hready : arguments.Ready disk stdin config data)
    (h : Page.Written (arguments.templates.map (arguments.page disk config data)) disk later) :
    arguments.Outputs disk config data later := by
  constructor
  · intro before template after htemplates hafter
    obtain ⟨names, html, hrenders⟩ := hready.renders template (by simp [htemplates])
    refine ⟨names, html, hrenders, ?_⟩
    have hfile := h.file (before.map (arguments.page disk config data)) (arguments.page disk config data template)
      (after.map (arguments.page disk config data)) (by simp [htemplates]) ?_
    · rwa [hrenders.locationOf_page, hrenders.page_eq] at hfile
    · -- templates with one place have the same names, since the place is the names behind the output directory
      intro page hpage hlocation
      obtain ⟨other, hother, rfl⟩ := List.mem_map.1 hpage
      obtain ⟨names', html', hrenders'⟩ := hready.renders other (by simp [htemplates, hother])
      exact hafter other hother (hrenders'.confined_eq_of_locationOf hrenders hlocation)
  · intro l
    obtain same | ⟨page, hpage, hl⟩ | ⟨hnone, hdir, page, hpage, hl⟩ := h.entry l
    · exact .inl same
    · obtain ⟨template, htemplate, rfl⟩ := List.mem_map.1 hpage
      obtain ⟨names, html, hrenders⟩ := hready.renders template htemplate
      exact .inr ⟨template, htemplate, names, hrenders.confined, .inl (hl.trans hrenders.locationOf_page)⟩
    · obtain ⟨template, htemplate, rfl⟩ := List.mem_map.1 hpage
      obtain ⟨names, html, hrenders⟩ := hready.renders template htemplate
      obtain ⟨hne, hslash⟩ := h.destination _ hpage
      rw [hrenders.page_eq] at hl hne hslash
      have hmake := Disk.above_join hl (PathName.isName_of_confined hrenders.confined) (names_ne_nil hne hslash)
      exact .inr ⟨template, htemplate, names, hrenders.confined, .inr ⟨hnone, hdir, hmake⟩⟩

/-- A run is all or nothing up to the point where it writes. Where a run is not ready to write, it fails and leaves
the disk as it is; where it is ready, it fails only with an error of writing the page of a template. A run that
comes to its end was ready, and has made its outputs. -/
theorem run_isolated (arguments : Arguments) (disk : Disk) (stdin : ByteArray) :
    ((¬∃ config data, arguments.Ready disk stdin config data) →
      (arguments.run disk stdin).disk = disk ∧ ∃ e, (arguments.run disk stdin).result = .error e) ∧
    (∀ config data e, arguments.Ready disk stdin config data → (arguments.run disk stdin).result = .error e →
      ∃ template ∈ arguments.templates, ∃ (names : List Text) (html : Text) (middle : Disk) (cause : FileFailure),
        arguments.Renders disk config data template names html ∧
        middle.write (PathName.join arguments.outputDirectory (PathName.ofNames names)) html =
          ((arguments.run disk stdin).disk, .error cause) ∧
        e = .file cause) ∧
    ((arguments.run disk stdin).result = .ok () →
      ∃ config data, arguments.Ready disk stdin config data ∧
        arguments.Outputs disk config data (arguments.run disk stdin).disk) := by
  refine ⟨fun hnot => ?_, fun config data e hready => ?_, ?_⟩
  · have hpages : ∀ pages, arguments.pages disk stdin ≠ .ok pages := by
      intro pages h
      obtain ⟨config, data, hready, -⟩ := pages_eq_ok.1 h
      exact hnot ⟨config, data, hready⟩
    unfold run
    split
    · rename_i e _
      exact ⟨rfl, e, rfl⟩
    · exact absurd ‹_› (hpages _)
  · unfold run
    rw [pages_eq_ok.2 ⟨config, data, hready, rfl⟩]
    simp only
    split
    · rename_i failed e' hwrite
      intro h
      obtain rfl : e' = e := by simpa using h
      obtain ⟨page, hpage, middle, cause, hfails, he⟩ := Page.exists_write_of_writeAll hwrite
      obtain ⟨template, htemplate, rfl⟩ := List.mem_map.1 hpage
      obtain ⟨names, html, hrenders⟩ := hready.renders template htemplate
      rw [hrenders.page_eq] at hfails
      exact ⟨template, htemplate, names, html, middle, cause, hrenders, hfails, he⟩
    · simp
  · unfold run
    split
    · simp
    · rename_i pages hpages
      split
      · simp
      · rename_i later hwrite
        intro
        obtain ⟨config, data, hready, rfl⟩ := pages_eq_ok.1 hpages
        exact ⟨config, data, hready, outputs_of_written hready (Page.written_of_writeAll hwrite)⟩

/-- A disk with one template in `t`, which is the working directory's. -/
def oneTemplate : Disk :=
  ⟨[([['t']], .directory), ([['t'], "x.html".toList], .file (Disk.encode "<p></p>".toList))], []⟩

def renderOne (outputDirectory : Text) : Arguments :=
  ⟨["x.html".toList], ['t'], outputDirectory, none, none, [], false, 0⟩

/-- One template is rendered to a directory that the run has to make. -/
theorem run_isolated_renderOne : ∃ config data, (renderOne ['b']).Ready oneTemplate .empty config data ∧
    (renderOne ['b']).Outputs oneTemplate config data ((renderOne ['b']).run oneTemplate .empty).disk :=
  (run_isolated (renderOne ['b']) oneTemplate .empty).2.2 (by decide +kernel)

/-- Where the output directory is `a/../b`, the run makes `a` on its way, which no output is in. -/
theorem run_makes_directory_climbing :
    ((renderOne "a/../b".toList).run oneTemplate .empty).result = .ok () ∧
    oneTemplate.get? [['a']] = none ∧
    Disk.get? ((renderOne "a/../b".toList).run oneTemplate .empty).disk [['a']] = some .directory ∧
    ∀ template ∈ (renderOne "a/../b".toList).templates, ∀ names ∈ PathName.confined? template,
      ¬[['a']] <+: (renderOne "a/../b".toList).fileOf oneTemplate names := by
  decide +kernel

end Arguments
end HtmlTemplate
