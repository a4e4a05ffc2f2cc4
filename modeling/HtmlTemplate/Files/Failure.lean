/-!
# File failures

Why a file could not be read or written, and the words of the operating system for it.
-/

namespace HtmlTemplate

/-- Why an operation on a file failed. -/
inductive FileFailure where
  | notFound
  | exists
  | notDirectory
  | isDirectory
  | nameTooLong
  /-- The content is not UTF-8. -/
  | notText
  /-- The name holds the character NUL. -/
  | nulInName
  /-- A library in memory has no such source. -/
  | notInMemory
  deriving Repr, DecidableEq

def FileFailure.message : FileFailure → String
  | notFound => "No such file or directory (os error 2)"
  | .exists => "File exists (os error 17)"
  | notDirectory => "Not a directory (os error 20)"
  | isDirectory => "Is a directory (os error 21)"
  | nameTooLong => "File name too long (os error 36)"
  | notText => "stream did not contain valid UTF-8"
  | nulInName => "file name contained an unexpected NUL byte"
  | notInMemory => "no such in-memory template"

end HtmlTemplate
