import HtmlTemplate.Text.Basic

/-!
# Loop expressions

A `*for` directive says `item of source`: the name that each item goes by, and the path of the array.
-/

namespace HtmlTemplate

/-- The item name and the source path of a loop. -/
structure LoopExpr where
  item : Text
  source : Text
  deriving Repr, DecidableEq

namespace LoopExpr

def keyword : Text := ['o', 'f']

/-- Whether a word is a name: alphanumeric characters and underscores, at least one. -/
def isIdentifier (word : Text) : Bool :=
  !word.isEmpty && word.all fun c => Text.isAlphanumeric c || c == '_'

/-- Whether a word is names with points between them. -/
def isPath (word : Text) : Bool := (word.splitOn '.').all isIdentifier

/-- Reads a loop expression; blanks between its words do not matter. -/
def parse? (expression : Text) : Option LoopExpr :=
  match expression.words with
  | [item, word, source] =>
    if word = keyword && isIdentifier item && isPath source then some ⟨item, source⟩ else none
  | _ => none

/-- The expression with single blanks. -/
def text (e : LoopExpr) : Text := e.item ++ [' '] ++ keyword ++ [' '] ++ e.source

end LoopExpr
end HtmlTemplate
