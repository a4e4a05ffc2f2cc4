import HtmlTemplate.Text.Basic

/-!
# Path names

File names with slashes, read lexically. A name is confined when following its steps never climbs out
of the directory it starts in; what is left then are ordinary names only.
-/

namespace HtmlTemplate.PathName

/-- A step of a path name. Empty steps and single dots are no steps. -/
inductive Step where
  | root
  | parent
  | name (n : Text)
  deriving Repr, DecidableEq

def isAbsolute (path : Text) : Bool := path.head? == some '/'

/-- The parts between slashes that are not empty. -/
def parts (path : Text) : List Text := (path.splitOn '/').filter fun part => !part.isEmpty

def stepOf? (part : Text) : Option Step :=
  if part = ['.'] then none
  else if part = ['.', '.'] then some .parent
  else some (.name part)

def steps (path : Text) : List Step :=
  (if isAbsolute path then [.root] else []) ++ (parts path).filterMap stepOf?

/-- Follows steps from the directory reached by the names in `reached`, innermost first; none where
they lead out. -/
def follow? : (reached : List Text) → List Step → Option (List Text)
  | reached, [] => some reached.reverse
  | reached, .name n :: rest => follow? (n :: reached) rest
  | _ :: reached, .parent :: rest => follow? reached rest
  | [], .parent :: _ => none
  | _, .root :: _ => none

/-- The names that a confined path name leads through; none for any other. -/
def confined? (path : Text) : Option (List Text) := follow? [] (steps path)

def ofNames (names : List Text) : Text := List.intercalate ['/'] names

/-- The path name of `path` seen from `base`. -/
def join (base path : Text) : Text :=
  if isAbsolute path || base.isEmpty then path
  else if base.getLast? = some '/' then base ++ path
  else base ++ '/' :: path

/-- What follows the last point of the last part, if that point does not begin the part. -/
def extension? (path : Text) : Option Text :=
  match (steps path).getLast? with
  | some (.name n) =>
    let ending := (n.reverse.takeWhile (· != '.')).reverse
    if ending.length + 1 < n.length then some ending else none
  | _ => none

end HtmlTemplate.PathName
