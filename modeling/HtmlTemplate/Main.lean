import HtmlTemplate.Command.Exit
import HtmlTemplate.Command.Reads

/-!
# The program

The outermost layer: it looks at the files that a run names, lets the run take place on a disk of just
these, and carries out what that has changed.
-/

namespace HtmlTemplate.Program

/-- The absolute path name of a location. -/
def pathOf (location : Location) : String := (Text.str ('/' :: PathName.ofNames location))

def directoryCode : UInt32 := 21

def probe (location : Location) : IO (Option Entry) := do
  try
    return some (.file (← IO.FS.readBinFile (pathOf location)))
  catch
    | .inappropriateType _ code _ => return if code == directoryCode then some .directory else none
    | _ => return none

/-- Adds to a disk what stands on the way of a path name. -/
def look (disk : Disk) (path : Text) : IO Disk :=
  (disk.locationsOn path).foldlM (fun disk location => do
    if (disk.get? location).isSome then return disk
    match ← probe location with
    | some entry => return disk.put location entry
    | none => return disk) disk

/-- The working directory on a disk that knows nothing else. -/
def startDisk : IO Disk := do
  let here := PathName.parts (← IO.currentDir).toString.toList
  look ⟨[], here⟩ ['.']

def diskFor (arguments : Arguments) : IO Disk := do
  let disk ← arguments.firstReads.foldlM look (← startDisk)
  (arguments.laterReads disk).foldlM look disk

/-- The content of standard input if the arguments ask for it. -/
def standardInputFor (arguments : Arguments) : IO ByteArray := do
  if arguments.readsStandardInput then (← IO.getStdin).readBinToEnd else return .empty

def carryOut (change : Location × Entry) : IO Unit :=
  match change.2 with
  | .directory => IO.FS.createDirAll (pathOf change.1)
  | .file content => IO.FS.writeBinFile (pathOf change.1) content

/-- Carries out the changes of a run, prints what it says, and gives its exit code. -/
def finish (exit : Command.Exit) (before : Disk) : IO UInt32 := do
  (exit.disk.changes before []).forM carryOut
  (← IO.getStdout).putStr exit.output.str
  (← IO.getStderr).putStr exit.diagnostics.str
  return UInt32.ofNat exit.code

end HtmlTemplate.Program

/-- Renders the templates named on the command line. -/
def main (args : List String) : IO UInt32 := do
  let names := args.map String.toList
  match HtmlTemplate.Arguments.parse names with
  | .error fault =>
    let disk ← HtmlTemplate.Program.startDisk
    HtmlTemplate.Program.finish (HtmlTemplate.Command.exitOfFault disk fault) disk
  | .ok arguments =>
    let disk ← HtmlTemplate.Program.diskFor arguments
    let stdin ← HtmlTemplate.Program.standardInputFor arguments
    HtmlTemplate.Program.finish (HtmlTemplate.Command.exitOfOutcome (arguments.run disk stdin)) disk
