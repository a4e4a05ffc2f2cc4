import HtmlTemplate.Error
import HtmlTemplate.Files.Disk

/-!
# Libraries of sources

Templates, includes and stylesheets are loaded by name, from memory or from a directory that no name
leads out of.
-/

namespace HtmlTemplate

/-- Where named sources are kept. -/
inductive Library where
  | memory (sources : List (Text × Text))
  | directory (base : Text) (disk : Disk)

namespace Library

/-- A library in memory with one more source, in the place of an earlier one of that name. -/
def insert (sources : List (Text × Text)) (name content : Text) : List (Text × Text) :=
  match sources with
  | [] => [(name, content)]
  | (n, c) :: rest =>
    if n = name then (name, content) :: rest else (n, c) :: insert rest name content

/-- The path name of a source in a directory. -/
def pathOf (base name : Text) : Except LoadFailure Text :=
  match PathName.confined? name with
  | some names => .ok (PathName.join base (PathName.ofNames names))
  | none => .error (.outside name)

def load : Library → Text → Except LoadFailure Text
  | memory sources, name =>
    match sources.lookup name with
    | some content => .ok content
    | none => .error (.unreadable name .notInMemory)
  | directory base disk, name =>
    match pathOf base name with
    | .error failure => .error failure
    | .ok path =>
      match disk.read path with
      | .ok content => .ok content
      | .error cause => .error (.unreadable path cause)

end Library
end HtmlTemplate
