import HtmlTemplate.Markup.Tag

/-!
# Balance

A text is valid markup when its tags close in the order in which they opened, element names compared
without case, and when it starts with `<` and ends with `>` apart from blanks. `check` reports the
first fault.
-/

namespace HtmlTemplate

/-- Why a text is not valid markup. Names are in lower case. -/
inductive Imbalance where
  /-- A closing tag with nothing open. -/
  | unexpectedClose (tag : Text)
  /-- A closing tag that is not the one of the innermost open element. -/
  | mismatchedClose (expected found : Text)
  /-- An element still open at the end. -/
  | unclosed (tag : Text)
  /-- The trimmed text does not start with `<` and end with `>`. -/
  | notMarkup
  deriving Repr, DecidableEq

def Imbalance.message : Imbalance → String
  | unexpectedClose tag => "unexpected </" ++ tag.str ++ ">"
  | mismatchedClose expected found =>
    "expected </" ++ expected.str ++ "> but found </" ++ found.str ++ ">"
  | unclosed tag => "<" ++ tag.str ++ "> is never closed"
  | notMarkup => "content does not start and end with a tag"

namespace Markup

/-- Checks that tags close in order, given the names of the elements open before them, innermost
first. -/
def checkTags : List Text → List Tag → Except Imbalance Unit
  | [], [] => .ok ()
  | innermost :: _, [] => .error (.unclosed innermost)
  | stack, tag :: tags =>
    if tag.closing then
      match stack with
      | [] => .error (.unexpectedClose tag.name.lower)
      | innermost :: stack =>
        if innermost = tag.name.lower then checkTags stack tags
        else .error (.mismatchedClose innermost tag.name.lower)
    else if tag.opensScope then checkTags (tag.name.lower :: stack) tags
    else checkTags stack tags

/-- Whether a text starts with `<` and ends with `>`, apart from blanks. -/
def delimited (t : Text) : Bool :=
  t.trim.head? == some '<' && t.trim.getLast? == some '>'

/-- Checks that a text is valid markup and reports the first fault. -/
def check (t : Text) : Except Imbalance Unit :=
  match checkTags [] (ofText t).tags with
  | .error fault => .error fault
  | .ok () => if delimited t then .ok () else .error .notMarkup

end Markup
end HtmlTemplate
