import HtmlTemplate.Directive.Basic
import HtmlTemplate.Placeholder
import HtmlTemplate.Proofs.Markup.Holes

/-!
# Templates as trees

Templates whose tags, attributes and placeholders are well formed, as trees, and what such a tree
stands for: a recursive evaluator in which a loop binds its item for its own element only. Rendering
never builds these trees; that it agrees with the evaluator is shown of their texts.
-/

namespace HtmlTemplate

/-! ## Trees -/

/-- A path of names with points between them. -/
structure Path where
  head : Text
  tail : List Text
  deriving DecidableEq

/-- A character of a text, or a placeholder. -/
inductive Bit where
  | char (c : Char)
  | hole (path : Path)
  deriving DecidableEq

/-- What a directive says. -/
inductive Clause where
  | loop (item : Text) (source : Path)
  | guard (negated : Bool) (path : Path)
  deriving DecidableEq

/-- A part of an opening tag behind its name: a blank, an attribute, or a directive. Attributes and
directives begin with the blank before them. -/
inductive Chunk where
  | space (c : Char)
  | plain (blank : Char) (name : Text) (quote : Char) (value : List Bit)
  | directive (blank quote : Char) (clause : Clause)
  deriving DecidableEq

/-- An opening tag, with a slash before its end or without. -/
structure Opening where
  name : Text
  chunks : List Chunk
  slash : Bool
  deriving DecidableEq

/-- A template, from the left: a bit of text, a tag without content, or an element, and what follows. -/
inductive Template where
  | nil
  | bit (b : Bit) (rest : Template)
  | leaf (o : Opening) (rest : Template)
  | element (o : Opening) (inside rest : Template)
  deriving DecidableEq

/-! ## Texts -/

def Path.text (p : Path) : Text := p.head ++ p.tail.flatMap ('.' :: ·)

def Bit.text : Bit → Text
  | char c => [c]
  | hole p => Placeholder.openBraces ++ p.text ++ Placeholder.closeBraces

namespace Clause

def kind : Clause → DirectiveKind
  | loop .. => .loop
  | guard .. => .guard

/-- What stands between the quotes of a directive. -/
def text : Clause → Text
  | loop item source => item ++ ' ' :: 'o' :: 'f' :: ' ' :: source.text
  | guard negated p => (if negated then ['!'] else []) ++ p.text

def attr (blank quote : Char) (clause : Clause) : Attribute := ⟨blank, ['='], quote, clause.text⟩

end Clause

namespace Chunk

def text : Chunk → Text
  | space c => [c]
  | plain blank name quote value => blank :: (name ++ '=' :: quote :: (value.flatMap Bit.text ++ [quote]))
  | directive blank quote clause => (clause.attr blank quote).print clause.kind.attributeName

def kind? : Chunk → Option DirectiveKind
  | directive _ _ clause => some clause.kind
  | _ => none

end Chunk

namespace Opening

def trail (o : Opening) : Text := if o.slash then ['/'] else []

def tag (o : Opening) : Tag := ⟨false, o.name, o.chunks.flatMap Chunk.text ++ o.trail⟩

def closingTag (o : Opening) : Tag := ⟨true, o.name, []⟩

def without (kind : DirectiveKind) (o : Opening) : Opening :=
  { o with chunks := o.chunks.filter fun k => k.kind? != some kind }

end Opening

/-- The characters of a template. -/
def Template.text : Template → Text
  | nil => []
  | bit b rest => b.text ++ rest.text
  | leaf o rest => o.tag.print ++ rest.text
  | element o inside rest => o.tag.print ++ (inside.text ++ (o.closingTag.print ++ rest.text))

/-! ## Well-formed templates -/

/-- Whether a text is a name of ASCII letters, digits and underscores. -/
def isIdent (t : Text) : Bool := !t.isEmpty && t.all fun c => c.isAlphanum || c == '_'

def Path.isValid (p : Path) : Bool := isIdent p.head && p.tail.all isIdent

/-- Whether a character may stand in a run of text. -/
def isPlainChar (c : Char) : Bool :=
  c != '<' && c != '>' && c != '\x7b' && c != '\x7d' && c != '*'

def Bit.isValid : Bit → Bool
  | char c => isPlainChar c
  | hole p => p.isValid

def Clause.isValid : Clause → Bool
  | loop item source => isIdent item && source.isValid
  | guard _ p => p.isValid

def Chunk.isValid : Chunk → Bool
  | space c => Text.isBlank c
  | plain blank name quote value =>
    Text.isBlank blank && !name.isEmpty && name.all Text.isAlphanumeric && Text.isQuote quote &&
      value.all fun b => b.isValid && b != .char quote
  | directive blank quote clause => Text.isBlank blank && Text.isQuote quote && clause.isValid

/-- Whether a tag has a name, valid chunks, and at most one directive of each kind. -/
def Opening.isValid (o : Opening) : Bool :=
  Tag.isName o.name && o.chunks.all Chunk.isValid &&
    [DirectiveKind.loop, .guard].all fun kind => o.chunks.countP (·.kind? == some kind) ≤ 1

/-- Whether all parts of a template are valid, the tags without content being of void elements or
closing themselves, and all others neither. -/
def Template.isValid : Template → Bool
  | nil => true
  | bit b rest => b.isValid && rest.isValid
  | leaf o rest => o.isValid && (o.slash || Tag.isVoidName o.name) && rest.isValid
  | element o inside rest =>
    o.isValid && !(o.slash || Tag.isVoidName o.name) && inside.isValid && rest.isValid

/-! ## Evaluation -/

/-- What paths stand for at some place of a template. -/
abbrev Env := Path → Option Value

namespace Env

/-- Outside all loops, paths lead into the data. -/
def ofData (data : Value) : Env := fun p => (p.head :: p.tail).foldlM Value.child? data

/-- Inside a loop, the name of its item hides all that went by it outside. -/
def bind (e : Env) (item : Text) (v : Value) : Env := fun p =>
  if p.head = item then p.tail.foldlM Value.child? v else e p

end Env

/-- A loop over what is no array: its item, and what its source is. -/
structure LoopFault where
  item : Text
  kind : Kind
  deriving DecidableEq

def Bit.eval (e : Env) : Bit → Text
  | char c => [c]
  | hole p =>
    match e p with
    | some v => Escape.text v.text
    | none => []

def Clause.holds (e : Env) : Clause → Bool
  | guard negated p => isTruthy (e p) != negated
  | loop .. => true

namespace Chunk

/-- Directives leave nothing behind. -/
def eval (e : Env) : Chunk → Text
  | space c => [c]
  | plain blank name quote value => blank :: (name ++ '=' :: quote :: (value.flatMap (Bit.eval e) ++ [quote]))
  | directive .. => []

def holds (e : Env) : Chunk → Bool
  | directive _ _ clause => clause.holds e
  | _ => true

/-- The item and the source of the loop that a chunk is. -/
def loop? : Chunk → Option (Text × Path)
  | directive _ _ (.loop item source) => some (item, source)
  | _ => none

end Chunk

/-- One outcome after another; the first fault wins. -/
def joined (r s : Except LoopFault Text) : Except LoopFault Text := do
  let t ← r
  let u ← s
  return t ++ u

namespace Opening

def loop? (o : Opening) : Option (Text × Path) := o.chunks.findSome? Chunk.loop?

def holds (e : Env) (o : Opening) : Bool := o.chunks.all (Chunk.holds e)

def eval (e : Env) (o : Opening) : Text := Tag.print ⟨false, o.name, o.chunks.flatMap (Chunk.eval e) ++ o.trail⟩

/-- What an element stands for: its body, once for each item if it has a loop. -/
def repeated (o : Opening) (e : Env) (body : Env → Except LoopFault Text) : Except LoopFault Text :=
  match o.loop? with
  | none => body e
  | some (item, source) =>
    match e source with
    | some (.array values) => values.foldr (fun v rest => joined (body (e.bind item v)) rest) (.ok [])
    | other => .error ⟨item, .of other⟩

end Opening

/-- What a template stands for. The source of a loop is read outside the loop, its guard inside. Loops are
evaluated in order, also those in an element whose guard does not hold. -/
def Template.eval : Template → Env → Except LoopFault Text
  | nil, _ => .ok []
  | bit b rest, e => joined (.ok (b.eval e)) (rest.eval e)
  | leaf o rest, e =>
    joined (o.repeated e fun e => .ok (if o.holds e then o.eval e else [])) (rest.eval e)
  | element o inside rest, e =>
    joined
      (o.repeated e fun e =>
        (inside.eval e).map fun t => if o.holds e then o.eval e ++ (t ++ o.closingTag.print) else [])
      (rest.eval e)

end HtmlTemplate
