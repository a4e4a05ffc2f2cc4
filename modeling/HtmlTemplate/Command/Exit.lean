import HtmlTemplate.Command.Run

/-!
# Exits

How the program ends as a whole: its exit code, and what it has written to the disk, to standard output
and to standard error. A call without what is required shows how to call the program and fails.
-/

namespace HtmlTemplate.Command

/-- The end of the program. -/
structure Exit where
  code : Nat
  disk : Disk
  output : Text
  diagnostics : Text

def version : String := "templ 0.4.0\n"

def help : String :=
  "Render directive-based HTML templates to files.\n\n" ++
  "Usage: templ [OPTIONS] --output-dir <OUTPUT_DIR> <TEMPLATE>...\n\n" ++
  "Arguments:\n" ++
  "  <TEMPLATE>...  Template file names, relative to the templates directory\n\n" ++
  "Options:\n" ++
  "  -t, --templates-dir <DIR>      Directory holding templates, includes, stylesheets and " ++
    "`templ.*` config [default: .]\n" ++
  "  -o, --output-dir <OUTPUT_DIR>  Destination directory for rendered files\n" ++
  "  -d, --data <DATA>              Render data as a JSON object, or `-` to read it from stdin\n" ++
  "      --data-file <FILE>         Render data from a JSON or YAML file\n" ++
  "  -c, --css <CSS>                Stylesheet files to inline, in order (repeatable)\n" ++
  "  -f, --force                    Force overwrite of an existing output directory\n" ++
  "  -v, --verbose...               Increase logging verbosity (`-v`, `-vv`, `-vvv`)\n" ++
  "  -h, --help                     Print help\n" ++
  "  -V, --version                  Print version\n"

/-- The end of a call that does not come to a run. -/
def exitOfFault (disk : Disk) : UsageFault → Exit
  | .missingRequired => ⟨1, disk, help.toList, []⟩
  | .displayHelp => ⟨0, disk, help.toList, []⟩
  | .displayVersion => ⟨0, disk, version.toList, []⟩
  | fault => ⟨2, disk, [], fault.message.toList ++ ['\n']⟩

def exitOfOutcome (outcome : Outcome) : Exit :=
  match outcome.result with
  | .ok () => ⟨0, outcome.disk, outcome.output, []⟩
  | .error e => ⟨1, outcome.disk, outcome.output, e.message.toList ++ ['\n']⟩

/-- The end of the program when it is called with arguments. -/
def exec (arguments : List Text) (disk : Disk) (stdin : ByteArray) : Exit :=
  match Arguments.parse arguments with
  | .error fault => exitOfFault disk fault
  | .ok arguments => exitOfOutcome (arguments.run disk stdin)

end HtmlTemplate.Command
