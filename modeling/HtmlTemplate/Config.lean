import HtmlTemplate.Data.Json.Reader
import HtmlTemplate.Data.Yaml.Node
import HtmlTemplate.Engine
import HtmlTemplate.Library

/-!
# Configuration

A directory of templates may hold a configuration file, in JSON or YAML, with the ending of template
names and the stylesheets for every document. Fields are known by name, may be left out, and may not be
repeated. A configuration is used only if its ending is a point and something after it.
-/

namespace HtmlTemplate

/-- The ending of template names, and the stylesheets that every document gets first. -/
structure Config where
  suffix : Text := Source.defaultSuffix
  stylesheets : List Text := []
  deriving Repr, DecidableEq

namespace Config

/-! ## Fields -/

/-- The fields of a configuration as far as they have been read. -/
structure Fields where
  suffix : Option Text := none
  stylesheets : Option (List Text) := none

/-- The name of the field for the ending of template names. -/
def suffixField : Text := "template_suffix".toList

def stylesheetsField : Text := "stylesheets".toList

/-- Sets a field by name, given how to read its value. A field set already is refused. -/
def Fields.set {α : Type} (text? : α → Option Text) (texts? : α → Option (List Text))
    (fields : Fields) (field : Text × α) : Option Fields :=
  if field.1 = suffixField then
    if fields.suffix.isSome then none
    else (text? field.2).map fun t => { fields with suffix := some t }
  else if field.1 = stylesheetsField then
    if fields.stylesheets.isSome then none
    else (texts? field.2).map fun names => { fields with stylesheets := some names }
  else none

/-- The configuration with defaults for the fields left out. -/
def Fields.config (fields : Fields) : Config :=
  let defaults : Config := {}
  ⟨fields.suffix.getD defaults.suffix, fields.stylesheets.getD defaults.stylesheets⟩

/-! ## JSON -/

def jsonText? : Value → Option Text
  | .string t => some t
  | _ => none

def jsonTexts? : Value → Option (List Text)
  | .array items => items.mapM jsonText?
  | _ => none

/-- Reads a JSON value with members as written: an object, or an array of the fields in order. -/
def ofJson? : Value → Option Config
  | .object members => (members.foldlM (Fields.set jsonText? jsonTexts?) {}).map Fields.config
  | .array items =>
    if items.length ≤ 2 then
      (([suffixField, stylesheetsField].zip items).foldlM (Fields.set jsonText? jsonTexts?) {}).map
        Fields.config
    else none
  | _ => none

/-! ## YAML -/

/-- The list of texts that a YAML node is; a node left out is the empty list. -/
def yamlTexts? : Yaml.Node → Option (List Text)
  | .sequence _ items => items.mapM Yaml.Node.text?
  | .scalar true _ [] => some []
  | .aliasFor target => yamlTexts? target
  | _ => none

/-- The members of a YAML mapping; a node left out has none. -/
def yamlMembers? : Yaml.Node → Option (List (Yaml.Node × Yaml.Node))
  | .mapping _ members => some members
  | .scalar true _ [] => some []
  | .aliasFor target => yamlMembers? target
  | _ => none

/-- Sets the field that a member of a YAML mapping stands for. -/
def Fields.setMember (fields : Fields) (member : Yaml.Node × Yaml.Node) : Option Fields :=
  member.1.text?.bind fun name => fields.set Yaml.Node.text? yamlTexts? (name, member.2)

/-- Reads a YAML node. Scalars are texts as they are written. -/
def ofYaml? (node : Yaml.Node) : Option Config :=
  (yamlMembers? node).bind fun members =>
    (members.foldlM Fields.setMember {}).map Fields.config

/-! ## Checking and loading -/

/-- Checks that the ending of template names is a point and something after it. -/
def validate (config : Config) : Except ConfigFault Unit :=
  if config.suffix.isEmpty then .error .emptySuffix
  else if config.suffix.head? != some '.' || Text.byteLength config.suffix < 2 then
    .error .badSuffix
  else .ok ()

/-- Reads the content of a configuration file. Only names that end in `.json` are of JSON files. -/
def read? (name content : Text) : Option Config :=
  if ".json".toList.isSuffixOf name then (Json.read? content).bind ofJson?
  else (Yaml.Node.parse? content).bind ofYaml?

/-- Reads and checks the content of a configuration file. -/
def parse (name content : Text) : Except Error Config :=
  match read? name content with
  | none => .error .configSyntax
  | some config =>
    match config.validate with
    | .error fault => .error (.configFault fault)
    | .ok () => .ok config

/-- The names of configuration files; the first that is there counts. -/
def fileNames : List Text := ["templ.json".toList, "templ.yaml".toList, "templ.yml".toList]

/-- The configuration of a directory, if it has one. -/
def load (disk : Disk) (directory : Text) : Except Error (Option Config) :=
  match fileNames.find? fun name => disk.isFile (PathName.join directory name) with
  | none => .ok none
  | some name =>
    match disk.read (PathName.join directory name) with
    | .error cause => .error (.file cause)
    | .ok content =>
      match parse name content with
      | .error e => .error e
      | .ok config => .ok (some config)

/-- The configuration of a directory, or the defaults. -/
def loadOrDefault (disk : Disk) (directory : Text) : Except Error Config :=
  match load disk directory with
  | .error e => .error e
  | .ok found => .ok (found.getD {})

end Config

/-- An engine with a library and a configuration. -/
def Engine.ofConfig (library : Library) (config : Config) : Engine :=
  ⟨library.load, config.suffix, config.stylesheets.map .file⟩

end HtmlTemplate
