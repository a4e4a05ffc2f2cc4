import HtmlTemplate.Directive.Expansion
import HtmlTemplate.Directive.Selection
import HtmlTemplate.Include
import HtmlTemplate.Style

/-!
# Rendering

An engine holds a way to load sources by name, whatever it is, and defaults. Rendering loads a
template, guards its comments, checks it, resolves includes, expands loops, selects guarded elements,
interpolates values, embeds stylesheets, checks the outcome, and restores the comments. The first
failure ends it. Nothing outlives a call.
-/

namespace HtmlTemplate

/-! ## Sources and stylesheets -/

/-- Where the markup of a template comes from. -/
inductive Source where
  /-- A name to load. -/
  | file (name : Text)
  /-- The markup itself. -/
  | inline (markup : Text)
  deriving Repr, DecidableEq

namespace Source

def defaultSuffix : Text := ['.', 'h', 't', 'm', 'l']

/-- A text with this ending and without `<` is a name; any other is markup. -/
def detect (suffix t : Text) : Source :=
  if suffix.isSuffixOf t.trim && !t.trim.contains '<' then file t.trim else inline t

def describe : Source → Text
  | file name => "template file: '".toList ++ name ++ ['\'']
  | inline _ => "inline template".toList

end Source

/-- A stylesheet to embed. -/
inductive Stylesheet where
  /-- A name to load. -/
  | file (name : Text)
  /-- The rules themselves. -/
  | inline (css : Text)
  deriving Repr, DecidableEq

namespace Stylesheet

def describe : Stylesheet → Text
  | file name => "stylesheet file: '".toList ++ name ++ ['\'']
  | inline _ => "inline stylesheet".toList

def load (source : Text → Except LoadFailure Text) : Stylesheet → Except Error Text
  | inline css => .ok css
  | file name =>
    match source name with
    | .ok css => .ok css
    | .error failure => .error (.ofStylesheet name failure)

/-- The rules of stylesheets in order, or the first failure. -/
def loadAll (source : Text → Except LoadFailure Text) : List Stylesheet → Except Error (List Text)
  | [] => .ok []
  | sheet :: sheets =>
    match sheet.load source with
    | .error e => .error e
    | .ok css =>
      match loadAll source sheets with
      | .error e => .error e
      | .ok rest => .ok (css :: rest)

end Stylesheet

/-! ## Engines -/

/-- A way to load sources, the ending of template names, and the stylesheets that every document gets
first. -/
structure Engine where
  load : Text → Except LoadFailure Text
  suffix : Text := Source.defaultSuffix
  stylesheets : List Stylesheet := []

namespace Engine

def markup (engine : Engine) : Source → Except Error Text
  | .inline markup => .ok markup
  | .file name =>
    match engine.load name with
    | .ok markup => .ok markup
    | .error failure => .error (.ofTemplate failure)

/-- The document before stylesheets: includes resolved, loops expanded, guards selected and values
interpolated in a guarded text. -/
def fill (engine : Engine) (data : Value) (t : Text) (table : Comment.Table) :
    Except Error (Text × Comment.Table) :=
  match IncludeMarker.resolve engine.load t table with
  | .error e => .error e
  | .ok (t, table) =>
    match Directive.expand t data with
    | (.error e, _) => .error e
    | (.ok t, scope) =>
      match Directive.select scope t with
      | .error e => .error e
      | .ok t => .ok (Placeholder.interpolate scope t, table)

/-- Guards stylesheets, so that restoring the document leaves them as they are, and embeds them. -/
def style (engine : Engine) (sheets : List Stylesheet) (html : Text) (table : Comment.Table) :
    Except Error (Text × Comment.Table) :=
  match Stylesheet.loadAll engine.load (engine.stylesheets ++ sheets) with
  | .error e => .error e
  | .ok css =>
    let (css, table) := table.guardAll css
    .ok (Style.embed html css, table)

def renderMarkup (engine : Engine) (markup : Text) (data : Value) (sheets : List Stylesheet) :
    Except Error Text :=
  let (guarded, table) := Comment.extract markup
  match Markup.check guarded with
  | .error reason => .error (.invalidBefore reason)
  | .ok () =>
    match engine.fill data guarded table with
    | .error e => .error e
    | .ok (html, table) =>
      match engine.style sheets html table with
      | .error e => .error e
      | .ok (html, table) =>
        match Markup.check html with
        | .error reason => .error (.invalidAfter reason)
        | .ok () => .ok (table.restore html)

/-- Renders a source. -/
def renderSource (engine : Engine) (source : Source) (data : Value) (sheets : List Stylesheet) :
    Except Error Text :=
  match engine.markup source with
  | .error e => .error e
  | .ok markup => engine.renderMarkup markup data sheets

/-- Renders a template given by name or as markup. -/
def render (engine : Engine) (template : Text) (data : Value) (sheets : List Stylesheet) :
    Except Error Text :=
  engine.renderSource (.detect engine.suffix template) data sheets

end Engine

/-! ## Renderers -/

/-- Anything that renders sources. Unless it says otherwise, it tells names by the default ending. -/
structure Renderer where
  renderSource : Source → Value → List Stylesheet → Except Error Text
  render : Text → Value → List Stylesheet → Except Error Text := fun template =>
    renderSource (.detect Source.defaultSuffix template)

/-- An engine as a renderer, with its own ending of names. -/
def Engine.renderer (engine : Engine) : Renderer where
  renderSource := engine.renderSource
  render := engine.render

end HtmlTemplate
