import HtmlTemplate.Data.Value
import HtmlTemplate.Directive.Basic
import HtmlTemplate.Files.Failure
import HtmlTemplate.Markup.Balance

/-!
# Errors

Everything that can go wrong, by cause, with the class that callers tell errors apart by and the
message for people.
-/

namespace HtmlTemplate

/-- Why a named source could not be loaded. -/
inductive LoadFailure where
  /-- The name leads out of the directory of the library. -/
  | outside (name : Text)
  | unreadable (path : Text) (cause : FileFailure)
  deriving Repr, DecidableEq

/-- What is wrong with a configuration that could be read. -/
inductive ConfigFault where
  | emptySuffix
  | badSuffix
  deriving Repr, DecidableEq

/-- Why a run failed. -/
inductive Error where
  | file (cause : FileFailure)
  | outputExists (directory : Text)
  | templateLoad (path : Text) (cause : FileFailure)
  | includeLoad (name path : Text) (cause : FileFailure)
  | stylesheetLoad (name path : Text) (cause : FileFailure)
  | outside (name : Text)
  | invalidBefore (reason : Imbalance)
  | invalidAfter (reason : Imbalance)
  | unterminated (kind : DirectiveKind) (expression tag : Text)
  | loopSource (item source : Text) (kind : Kind)
  | loopExpression (expression : Text)
  /-- Loop expansion exceeded the rounds that any template with proper spans can take. -/
  | unsettledLoops
  /-- Render data has a key that is no string. -/
  | keyNotText
  | configSyntax
  | configFault (fault : ConfigFault)
  | dataSyntax
  | dataNotObject (kind : Kind)
  deriving Repr, DecidableEq

def ConfigFault.message : ConfigFault → String
  | emptySuffix => "template_suffix must not be empty"
  | badSuffix => "template_suffix must start with '.' and have at least 1 character after it"

namespace Error

def ofTemplate : LoadFailure → Error
  | .outside name => outside name
  | .unreadable path cause => templateLoad path cause

def ofInclude (name : Text) : LoadFailure → Error
  | .outside outsideName => outside outsideName
  | .unreadable path cause => includeLoad name path cause

def ofStylesheet (name : Text) : LoadFailure → Error
  | .outside outsideName => outside outsideName
  | .unreadable path cause => stylesheetLoad name path cause

/-- The class of an error, for callers that tell errors apart. -/
def className : Error → String
  | file _ => "io"
  | outputExists _ => "io"
  | templateLoad _ _ => "template-load-failure"
  | includeLoad _ _ _ => "include-load-failure"
  | stylesheetLoad _ _ _ => "stylesheet-load-failure"
  | outside _ => "path-outside-base-dir"
  | invalidBefore _ => "invalid-html-before"
  | invalidAfter _ => "invalid-html-after"
  | unterminated _ _ _ => "unterminated-directive"
  | loopSource _ _ _ => "loop-source-type-error"
  | loopExpression _ => "invalid-loop-expression"
  | unsettledLoops => "unsettled-loops"
  | keyNotText => "context-serialization"
  | configSyntax => "config"
  | configFault _ => "config"
  | dataSyntax => "data-parse"
  | dataNotObject _ => "data-parse"

def loadMessage (path : Text) (cause : FileFailure) : String :=
  "Failed to load template '" ++ path.str ++ "'. Original error: " ++ cause.message

def message : Error → String
  | file cause => "IO error: " ++ cause.message ++ "."
  | outputExists directory =>
    "Output directory '" ++ directory.str ++ "' already exists. Use --force to overwrite it."
  | templateLoad path cause => loadMessage path cause
  | includeLoad name path cause =>
    "Failed to load include '" ++ name.str ++ "'. Original error: " ++ loadMessage path cause
  | stylesheetLoad name path cause =>
    "Failed to load stylesheet '" ++ name.str ++ "'. Original error: " ++ loadMessage path cause
  | outside name => "Cannot load '" ++ name.str ++ "': path escapes the templates directory."
  | invalidBefore reason => "Invalid HTML content before rendering: " ++ reason.message ++ "."
  | invalidAfter reason => "Invalid HTML content after rendering: " ++ reason.message ++ "."
  | unterminated kind expression tag =>
    "Unterminated " ++ kind.attributeName.str ++ "=\"" ++ expression.str ++ "\": no closing </" ++
      tag.str ++ "> found."
  | loopSource item source kind =>
    "Expected array for *for=\"" ++ item.str ++ " of " ++ source.str ++ "\", got " ++ kind.name
  | loopExpression expression =>
    "Invalid loop expression *for=\"" ++ expression.str ++ "\", expected 'item of path'."
  | unsettledLoops => "Loop expansion does not settle."
  | keyNotText =>
    "Failed to convert render data into a context. Original error: key must be a string"
  | configSyntax => "Failed to parse config file. Original error: malformed content"
  | configFault fault => "Configuration validation failed: " ++ fault.message ++ "."
  | dataSyntax => "Failed to parse render data: malformed content."
  | dataNotObject kind =>
    "Failed to parse render data: expected an object at the top level, got " ++ kind.name ++ "."

end Error
end HtmlTemplate
