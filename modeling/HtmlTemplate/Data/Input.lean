import HtmlTemplate.Data.Json.Reader
import HtmlTemplate.Data.Yaml.Reader
import HtmlTemplate.Error
import HtmlTemplate.Files.Disk

/-!
# Input of render data

Render data come from a JSON or YAML file, told apart by the ending of its name, and from JSON given
directly or on standard input. They must be an object; null and blank JSON are the empty one. Members
given directly override those of the file.
-/

namespace HtmlTemplate.Input

/-- The members of data that must be an object. -/
def members : Value → Except Error Members
  | .object members => .ok members
  | .null => .ok []
  | other => .error (.dataNotObject other.kind)

/-- The members of data as they were read, if they could be. -/
def membersOf : Option Value → Except Error Members
  | some value => members value
  | none => .error .dataSyntax

def ofJson (t : Text) : Except Error Members :=
  if t.trim.isEmpty then .ok [] else membersOf (Json.parse? t)

def ofYaml (t : Text) : Except Error Members := membersOf (Yaml.parse? t)

/-- Whether a file holds YAML, by the ending of its name. -/
def isYamlName (path : Text) : Bool :=
  match PathName.extension? path with
  | some ending => ending = "yaml".toList || ending = "yml".toList
  | none => false

def ofFile (disk : Disk) (path : Text) : Except Error Members :=
  match disk.read path with
  | .error cause => .error (.file cause)
  | .ok t => if isYamlName path then ofYaml t else ofJson t

/-- Reads bytes as text. -/
def text (bytes : ByteArray) : Except Error Text :=
  match Disk.decode bytes with
  | .ok t => .ok t
  | .error cause => .error (.file cause)

/-- What stands for standard input in the place of data. -/
def standardInput : Text := ['-']

/-- Reads data given directly or on standard input. -/
def ofArgument (stdin : ByteArray) (given : Text) : Except Error Members :=
  if given = standardInput then
    match text stdin with
    | .error e => .error e
    | .ok t => ofJson t
  else ofJson given

def orEmpty (read : Text → Except Error Members) : Option Text → Except Error Members
  | some given => read given
  | none => .ok []

/-- The render data from a file, overridden by data given directly. -/
def collect (disk : Disk) (stdin : ByteArray) (given file : Option Text) : Except Error Value :=
  match orEmpty (ofFile disk) file with
  | .error e => .error e
  | .ok base =>
    match orEmpty (ofArgument stdin) given with
    | .error e => .error e
    | .ok overrides => .ok (.object (base.merge overrides))

end HtmlTemplate.Input
