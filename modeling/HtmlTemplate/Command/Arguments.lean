import HtmlTemplate.Text.Basic

/-!
# Command line arguments

The arguments name templates and options. An option that takes a value takes it from the same argument
or from the next one that does not look like an option; it is settled only when the next option or
template comes, or at the end. Two hyphens alone end the options. The first fault is reported, and
what is missing is reported last.
-/

namespace HtmlTemplate

/-- What is wrong with arguments, or what they ask for instead of a run. -/
inductive UsageFault where
  | missingRequired
  | unknownArgument
  | invalidValue
  | argumentConflict
  | tooManyValues
  | displayHelp
  | displayVersion
  deriving Repr, DecidableEq

def UsageFault.message : UsageFault → String
  | missingRequired => "error: the following required arguments were not provided"
  | unknownArgument => "error: unexpected argument found"
  | invalidValue => "error: a value is required but none was supplied"
  | argumentConflict => "error: an argument cannot be used multiple times"
  | tooManyValues => "error: unexpected value for an argument found; no more were expected"
  | displayHelp => ""
  | displayVersion => ""

/-- The arguments of a run. -/
structure Arguments where
  templates : List Text
  templatesDirectory : Text
  outputDirectory : Text
  data : Option Text
  dataFile : Option Text
  stylesheets : List Text
  force : Bool
  verbosity : Nat
  deriving Repr, DecidableEq

namespace Arguments

/-! ## Options -/

/-- An option that takes a value. -/
inductive Setting where
  | templatesDirectory | outputDirectory | data | dataFile | stylesheet
  deriving Repr, DecidableEq

/-- An option without a value. -/
inductive Switch where
  | force | verbose | help | version
  deriving Repr, DecidableEq

/-- An option. -/
inductive Opt where
  | setting (s : Setting)
  | switch (s : Switch)
  deriving Repr, DecidableEq

def Opt.ofLong? (name : Text) : Option Opt :=
  [("templates-dir", setting .templatesDirectory), ("output-dir", setting .outputDirectory),
    ("data", setting .data), ("data-file", setting .dataFile), ("css", setting .stylesheet),
    ("force", switch .force), ("verbose", switch .verbose), ("help", switch .help),
    ("version", switch .version)].lookup name.str

def Opt.ofLetter? : Char → Option Opt
  | 't' => some (setting .templatesDirectory)
  | 'o' => some (setting .outputDirectory)
  | 'd' => some (setting .data)
  | 'c' => some (setting .stylesheet)
  | 'f' => some (switch .force)
  | 'v' => some (switch .verbose)
  | 'h' => some (switch .help)
  | 'V' => some (switch .version)
  | _ => none

/-! ## Settling options -/

/-- The options settled so far, and the one that waits to be settled, with its value once that has
come. -/
structure Progress where
  templates : List Text := []
  templatesDirectory : Option Text := none
  outputDirectory : Option Text := none
  data : Option Text := none
  dataFile : Option Text := none
  stylesheets : List Text := []
  force : Bool := false
  verbosity : Nat := 0
  pending : Option (Setting × Option Text) := none

namespace Progress

/-- Checks the value of an option that may be set once and whose value may not be empty if it is a
path. -/
def once (earlier : Option Text) (isPath : Bool) (value : Text) : Except UsageFault (Option Text) :=
  if earlier.isSome then .error .argumentConflict
  else if isPath && value.isEmpty then .error .invalidValue
  else .ok (some value)

def set (p : Progress) (setting : Setting) (value : Text) : Except UsageFault Progress :=
  match setting with
  | .templatesDirectory => do
    return { p with templatesDirectory := ← once p.templatesDirectory true value }
  | .outputDirectory => do return { p with outputDirectory := ← once p.outputDirectory true value }
  | .data => do return { p with data := ← once p.data false value }
  | .dataFile => do return { p with dataFile := ← once p.dataFile true value }
  | .stylesheet => .ok { p with stylesheets := p.stylesheets ++ [value] }

def settle (p : Progress) : Except UsageFault Progress :=
  match p.pending with
  | none => .ok p
  | some (_, none) => .error .invalidValue
  | some (setting, some value) => { p with pending := none }.set setting value

def maxVerbosity : Nat := 255

def turnOn (p : Progress) (switch : Switch) : Except UsageFault Progress := do
  let p ← p.settle
  match switch with
  | .force => if p.force then .error .argumentConflict else .ok { p with force := true }
  | .verbose => .ok { p with verbosity := min (p.verbosity + 1) maxVerbosity }
  | .help => .error .displayHelp
  | .version => .error .displayVersion

/-- Sets an option to a value from its own argument, or lets it wait for one. -/
def take (p : Progress) (setting : Setting) (value : Option Text) : Except UsageFault Progress := do
  let p ← p.settle
  match value with
  | some value => p.set setting value
  | none => .ok { p with pending := some (setting, none) }

def addTemplate (p : Progress) (name : Text) : Except UsageFault Progress := do
  let p ← p.settle
  return { p with templates := p.templates ++ [name] }

/-! ## Reading -/

/-- Reads an option with a long name, after its hyphens. -/
def readLong (p : Progress) (t : Text) : Except UsageFault Progress :=
  let value := match t.dropWhile (· != '=') with
    | [] => none
    | _ :: value => some value
  match Opt.ofLong? (t.takeWhile (· != '=')), value with
  | none, _ => .error .unknownArgument
  | some (.setting s), value => p.take s value
  | some (.switch s), none => p.turnOn s
  | some (.switch _), some _ => .error .tooManyValues

/-- The value that follows the letter of an option in the same argument. -/
def attached? : Text → Option Text
  | [] => none
  | '=' :: value => some value
  | value => some value

/-- Reads options by their letters. The first that takes a value takes all that follows. -/
def readLetters (p : Progress) : Text → Except UsageFault Progress
  | [] => .ok p
  | c :: t =>
    match Opt.ofLetter? c with
    | none => .error .unknownArgument
    | some (.setting s) => p.take s (attached? t)
    | some (.switch s) =>
      match p.turnOn s with
      | .error fault => .error fault
      | .ok p => p.readLetters t

/-- Reads an argument that does not look like an option: a value if one is waited for, else a
template. -/
def readPlain (p : Progress) (t : Text) : Except UsageFault Progress :=
  match p.pending with
  | some (setting, none) => .ok { p with pending := some (setting, some t) }
  | _ => p.addTemplate t

/-- Reads one argument before the end of the options. A hyphen alone is no option. -/
def read (p : Progress) (t : Text) : Except UsageFault Progress :=
  match t with
  | '-' :: '-' :: t => p.readLong t
  | '-' :: c :: t => p.readLetters (c :: t)
  | _ => p.readPlain t

def readAll (p : Progress) : List Text → Except UsageFault Progress
  | [] => .ok p
  | t :: rest =>
    if t = ['-', '-'] then rest.foldlM addTemplate p
    else
      match p.read t with
      | .error fault => .error fault
      | .ok p => p.readAll rest

end Progress

/-- The directory of templates unless one is given: the working directory. -/
def defaultTemplatesDirectory : Text := ['.']

/-- Reads arguments. There must be a template and a directory for the output. -/
def parse (arguments : List Text) : Except UsageFault Arguments := do
  let p ← Progress.readAll {} arguments
  let p ← p.settle
  match p.templates, p.outputDirectory with
  | templates@(_ :: _), some outputDirectory =>
    return {
      templates, outputDirectory
      templatesDirectory := p.templatesDirectory.getD defaultTemplatesDirectory
      data := p.data
      dataFile := p.dataFile
      stylesheets := p.stylesheets
      force := p.force
      verbosity := p.verbosity }
  | _, _ => .error .missingRequired

end Arguments

/-! ## Verbosity -/

/-- What a run reports besides its outcome. -/
inductive LogLevel where
  | error | info | debug | trace
  deriving Repr, DecidableEq

def LogLevel.ofVerbosity : Nat → LogLevel
  | 0 => error
  | 1 => info
  | 2 => debug
  | _ => trace

def LogLevel.name : LogLevel → String
  | error => "ERROR"
  | info => "INFO"
  | debug => "DEBUG"
  | trace => "TRACE"

end HtmlTemplate
