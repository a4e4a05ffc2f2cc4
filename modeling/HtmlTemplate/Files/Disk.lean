import HtmlTemplate.Files.Failure
import HtmlTemplate.Files.PathName

/-!
# Disks

A disk is a finite map from locations to files and directories, without links, and a working directory.
Reading and writing follow path names step by step as an operating system does: every step but the last
must lead to a directory.
-/

namespace HtmlTemplate

/-- What stands at a location. -/
inductive Entry where
  | file (content : ByteArray)
  | directory

/-- Files are the same if their bytes are. -/
instance : DecidableEq Entry
  | .file a, .file b =>
    if h : a.data = b.data then .isTrue (congrArg Entry.file (ByteArray.ext h))
    else .isFalse fun same => h (congrArg ByteArray.data (Entry.file.inj same))
  | .file _, .directory => .isFalse nofun
  | .directory, .file _ => .isFalse nofun
  | .directory, .directory => .isTrue rfl

/-- A location: the names that lead to it from the root. -/
abbrev Location := List Text

/-- Files and directories by location, and the working directory. The root is always a directory. -/
structure Disk where
  entries : List (Location × Entry)
  here : Location

namespace Disk

/-- The entry at a location. -/
def get? (disk : Disk) (location : Location) : Option Entry :=
  if location.isEmpty then some .directory else disk.entries.lookup location

def setEntry (location : Location) (entry : Entry) : List (Location × Entry) → List (Location × Entry)
  | [] => [(location, entry)]
  | (l, e) :: rest =>
    if l = location then (l, entry) :: rest else (l, e) :: setEntry location entry rest

def put (disk : Disk) (location : Location) (entry : Entry) : Disk :=
  { disk with entries := setEntry location entry disk.entries }

/-! ## Following path names -/

/-- The location that a name leads to from another, whatever stands there. -/
def follow (location : Location) (name : Text) : Location :=
  if name = ['.'] then location
  else if name = ['.', '.'] then location.dropLast
  else location ++ [name]

def maxName : Nat := 255

/-- The number of bytes from which a path name is too long. -/
def maxPath : Nat := 4096

/-- Follows names from a location. Each step starts at a directory; the last may lead to nothing. -/
def walk (disk : Disk) : Location → List Text → Except FileFailure Location
  | location, [] => .ok location
  | location, name :: names =>
    match disk.get? location with
    | none => .error .notFound
    | some (.file _) => .error .notDirectory
    | some .directory =>
      if name = ['.'] then walk disk location names
      else if name = ['.', '.'] then walk disk location.dropLast names
      else if maxName < Text.byteLength name then .error .nameTooLong
      else walk disk (location ++ [name]) names

def locate (disk : Disk) (path : Text) : Except FileFailure Location :=
  if path.contains '\x00' then .error .nulInName
  else if path.isEmpty then .error .notFound
  else if maxPath ≤ Text.byteLength path then .error .nameTooLong
  else disk.walk (if PathName.isAbsolute path then [] else disk.here) (PathName.parts path)

/-- What stands where a path name leads. After a final slash it must be a directory. -/
def find (disk : Disk) (path : Text) : Except FileFailure Entry :=
  match disk.locate path with
  | .error failure => .error failure
  | .ok location =>
    match disk.get? location with
    | none => .error .notFound
    | some .directory => .ok .directory
    | some (.file content) =>
      if path.getLast? = some '/' then .error .notDirectory else .ok (.file content)

/-- Whether anything stands where a path name leads. -/
def exists? (disk : Disk) (path : Text) : Bool :=
  match disk.find path with
  | .ok _ => true
  | .error _ => false

def isFile (disk : Disk) (path : Text) : Bool :=
  match disk.find path with
  | .ok (.file _) => true
  | _ => false

/-! ## Reading -/

def decode (content : ByteArray) : Except FileFailure Text :=
  match String.fromUTF8? content with
  | some s => .ok s.toList
  | none => .error .notText

def encode (t : Text) : ByteArray := (String.ofList t).toUTF8

/-- Reads the text of a file. -/
def read (disk : Disk) (path : Text) : Except FileFailure Text :=
  match disk.find path with
  | .error failure => .error failure
  | .ok .directory => .error .isDirectory
  | .ok (.file content) => decode content

/-! ## Writing -/

/-- Makes the directory that names from the root lead to. -/
def makeDirectory (disk : Disk) (names : List Text) : Except FileFailure Disk :=
  if names.any fun name => name.contains '\x00' then .error .nulInName
  else if maxPath ≤ Text.byteLength (PathName.ofNames names) then .error .nameTooLong
  else
    match disk.walk [] names with
    | .error failure => .error failure
    | .ok location =>
      if (disk.get? location).isSome then .error .exists
      else .ok (disk.put location .directory)

/-- Whether names from the root lead to a directory. -/
def isDirectory (disk : Disk) (names : List Text) : Bool :=
  match disk.walk [] names with
  | .ok location => disk.get? location == some .directory
  | .error _ => false

/-- Makes a directory, which may be there already. -/
def ensureDirectory (disk : Disk) (names : List Text) : Disk × Except FileFailure Unit :=
  match disk.makeDirectory names with
  | .ok disk => (disk, .ok ())
  | .error failure =>
    (disk, if failure = .exists ∧ disk.isDirectory names then .ok () else .error failure)

/-- Makes the directory that names lead to, given innermost first, and before it the directories above
it that are missing. What has been made stays when a later one fails. -/
def ensureDirectories (disk : Disk) : (innermostFirst : List Text) → Disk × Except FileFailure Unit
  | [] => (disk, .ok ())
  | name :: above =>
    let names := (name :: above).reverse
    match disk.ensureDirectory names with
    | (_, .error .notFound) =>
      match ensureDirectories disk above with
      | (disk, .error failure) => (disk, .error failure)
      | (disk, .ok ()) => disk.ensureDirectory names
    | outcome => outcome

/-- The names from the root that a path name stands for. -/
def absoluteParts (disk : Disk) (path : Text) : List Text :=
  (if PathName.isAbsolute path then [] else disk.here) ++ PathName.parts path

/-- Puts a file where a path name leads. A final slash asks for a directory, whatever stands before it
in a directory. -/
def writeFile (disk : Disk) (path content : Text) : Except FileFailure Disk :=
  let parts := disk.absoluteParts path
  let slashed := path.isEmpty || path.getLast? = some '/'
  if path.contains '\x00' then .error .nulInName
  else
    match disk.walk [] (if slashed then parts.dropLast ++ [['.']] else parts) with
    | .error failure => .error failure
    | .ok location =>
      if slashed || disk.get? location == some .directory then .error .isDirectory
      else .ok (disk.put location (.file (encode content)))

/-- Writes a file and makes the directories above it that are missing. -/
def write (disk : Disk) (path content : Text) : Disk × Except FileFailure Unit :=
  let steps := (disk.absoluteParts path).filter (· ≠ ['.'])
  match disk.ensureDirectories steps.dropLast.reverse with
  | (disk, .error failure) => (disk, .error failure)
  | (disk, .ok ()) =>
    match disk.writeFile path content with
    | .error failure => (disk, .error failure)
    | .ok disk => (disk, .ok ())

/-- The entries below a location that are not as they were on an earlier disk. -/
def changes (disk earlier : Disk) (below : Location) : List (Location × Entry) :=
  disk.entries.filter fun (location, entry) =>
    below.isPrefixOf location && earlier.get? location != some entry

end Disk
end HtmlTemplate
