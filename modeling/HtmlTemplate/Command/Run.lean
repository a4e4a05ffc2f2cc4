import HtmlTemplate.Command.Arguments
import HtmlTemplate.Config
import HtmlTemplate.Data.Input

/-!
# Runs

A run renders templates from one directory into another. Every template is rendered before anything is
written, so a run that fails before writing leaves the disk as it was.
-/

namespace HtmlTemplate

/-- A rendered template and where it goes. -/
structure Page where
  destination : Text
  html : Text
  deriving Repr, DecidableEq

namespace Page

/-- Writes pages in order up to the first failure. -/
def writeAll (disk : Disk) : List Page → Disk × Except Error Unit
  | [] => (disk, .ok ())
  | page :: pages =>
    match disk.write page.destination page.html with
    | (disk, .error cause) => (disk, .error (.file cause))
    | (disk, .ok ()) => writeAll disk pages

end Page

namespace Disk

/-- Checks that a directory may be written to: it must not be there unless that is forced. -/
def checkOutput (disk : Disk) (directory : Text) (force : Bool) : Except Error Unit :=
  if disk.exists? directory && !force then .error (.outputExists directory) else .ok ()

end Disk

namespace Arguments

/-- Where a template is written. -/
def destination (arguments : Arguments) (template : Text) : Except Error Text :=
  match PathName.confined? template with
  | none => .error (.outside template)
  | some names => .ok (PathName.join arguments.outputDirectory (PathName.ofNames names))

/-- Renders templates in order, or gives the first failure. -/
def renderAll (arguments : Arguments) (engine : Engine) (data : Value) :
    List Text → Except Error (List Page)
  | [] => .ok []
  | template :: templates => do
    let destination ← arguments.destination template
    let html ← engine.renderSource (.file template) data (arguments.stylesheets.map .file)
    let pages ← renderAll arguments engine data templates
    return ⟨destination, html⟩ :: pages

def library (arguments : Arguments) (disk : Disk) : Library :=
  .directory arguments.templatesDirectory disk

def pages (arguments : Arguments) (disk : Disk) (stdin : ByteArray) : Except Error (List Page) := do
  disk.checkOutput arguments.outputDirectory arguments.force
  let config ← Config.loadOrDefault disk arguments.templatesDirectory
  let data ← Input.collect disk stdin arguments.data arguments.dataFile
  arguments.renderAll (.ofConfig (arguments.library disk) config) data arguments.templates

def report (arguments : Arguments) : Text :=
  "Rendered ".toList ++ Text.numeral arguments.templates.length ++ " template(s) into ".toList ++
    arguments.outputDirectory ++ ['.', '\n']

end Arguments

/-- The outcome of a run: the disk as it leaves it, whether it failed, and what it printed. -/
structure Outcome where
  disk : Disk
  result : Except Error Unit
  output : Text

/-- Runs the program on a disk. -/
def Arguments.run (arguments : Arguments) (disk : Disk) (stdin : ByteArray) : Outcome :=
  match arguments.pages disk stdin with
  | .error e => ⟨disk, .error e, []⟩
  | .ok pages =>
    match Page.writeAll disk pages with
    | (disk, .error e) => ⟨disk, .error e, []⟩
    | (disk, .ok ()) => ⟨disk, .ok (), arguments.report⟩

end HtmlTemplate
