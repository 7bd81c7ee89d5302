import Labyrinth.Files.Path

/-!
# Access to files

The operations on files that the library needs, of which a program has the real ones and
`Files.Tree` a model.
-/

namespace Labyrinth

/-- Why an operation on files fails. -/
inductive FileError where
  | notFound
  | alreadyExists
  | notDirectory
  | isDirectory
  | nameTooLong
  | busy
  | notText
  | nulByte
  | other (message : String)
deriving DecidableEq, Repr

def FileError.message : FileError → String
  | notFound => "No such file or directory (os error 2)"
  | busy => "Device or resource busy (os error 16)"
  | alreadyExists => "File exists (os error 17)"
  | notDirectory => "Not a directory (os error 20)"
  | isDirectory => "Is a directory (os error 21)"
  | nameTooLong => "File name too long (os error 36)"
  | notText => "stream did not contain valid UTF-8"
  | nulByte => "file name contained an unexpected NUL byte"
  | other message => message

class FileAccess (m : Type → Type) where
  /-- Whether there is a file or directory at a path. -/
  exists? : Path → m Bool
  /-- The content of a file. -/
  read : Path → m (Except FileError ByteArray)
  /-- Makes a directory and those above it, as far as they are missing. -/
  createDirs : Path → m (Except FileError Unit)
  /-- Makes a file with a content, or gives it another one. -/
  write : Path → String → m (Except FileError Unit)
  /-- Moves a file to another path, over a file that is there. -/
  rename : Path → Path → m (Except FileError Unit)

namespace FileAccess

/-- The text of a file. -/
def readText {m : Type → Type} [Monad m] [FileAccess m] (p : Path) :
    m (Except FileError String) := do
  return (← read p).bind fun bytes =>
    match String.fromUTF8? bytes with
    | some text => .ok text
    | none => .error .notText

end FileAccess

end Labyrinth
