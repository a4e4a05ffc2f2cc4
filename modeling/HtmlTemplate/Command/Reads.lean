import HtmlTemplate.Command.Run

/-!
# Files of a run

The path names that a run looks at: first those that the arguments name, then those that the templates,
the configuration and the options name. A disk that knows what stands there is all that a run needs.
-/

namespace HtmlTemplate

namespace Disk

/-- The locations that a path name leads through, read without following it. -/
def locationsOn (disk : Disk) (path : Text) : List Location :=
  let steps := disk.absoluteParts path
  (List.range steps.length).map fun n => (steps.take (n + 1)).foldl follow []

end Disk

namespace Arguments

/-- The path names of sources in the directory of templates; names that lead out of it have none. -/
def sourcePaths (arguments : Arguments) (names : List Text) : List Text :=
  names.filterMap fun name => (Library.pathOf arguments.templatesDirectory name).toOption

def firstReads (arguments : Arguments) : List Text :=
  arguments.outputDirectory ::
    (Config.fileNames.map (PathName.join arguments.templatesDirectory) ++ arguments.dataFile.toList ++
      arguments.sourcePaths arguments.templates ++
      arguments.templates.filterMap fun template => (arguments.destination template).toOption)

def included (arguments : Arguments) (disk : Disk) (template : Text) : List Text :=
  match (arguments.library disk).load template with
  | .ok markup => (IncludeMarker.pattern.lexemes (Comment.extract markup).1).map IncludeMarker.source
  | .error _ => []

/-- The stylesheets of the configuration and of the options. -/
def stylesheetNames (arguments : Arguments) (disk : Disk) : List Text :=
  match Config.loadOrDefault disk arguments.templatesDirectory with
  | .ok config => config.stylesheets ++ arguments.stylesheets
  | .error _ => []

/-- The path names known once the first ones have been read. -/
def laterReads (arguments : Arguments) (disk : Disk) : List Text :=
  arguments.sourcePaths
    (arguments.templates.flatMap (arguments.included disk) ++ arguments.stylesheetNames disk)

def readsStandardInput (arguments : Arguments) : Bool :=
  arguments.data == some Input.standardInput

end Arguments
end HtmlTemplate
