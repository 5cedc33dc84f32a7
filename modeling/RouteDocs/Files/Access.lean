/-!
# Access to files

## Main definitions

* `Files.FileError`: why a file cannot be used, and its wording.
* `Files.Access`: the operations on files that a run needs.
-/

namespace RouteDocs.Files

/-- Why a file or directory cannot be used. -/
inductive FileError where
  | notFound
  | exists
  | notDirectory
  | isDirectory
  /-- The content of a file is not valid UTF-8. -/
  | notText
  | other (message : String)
deriving DecidableEq

/-- The wording of a failure. -/
def FileError.message : FileError → String
  | .notFound => "No such file or directory (os error 2)"
  | .exists => "File exists (os error 17)"
  | .notDirectory => "Not a directory (os error 20)"
  | .isDirectory => "Is a directory (os error 21)"
  | .notText => "stream did not contain valid UTF-8"
  | .other message => message

/-- The operations on files, with effects `m`. -/
structure Access (m : Type → Type) where
  /-- There is a file at a path. -/
  isFile : String → m Bool
  /-- The content of a file. -/
  read : String → m (Except FileError ByteArray)
  /-- Makes a directory and those around it. -/
  makeDirectories : String → m (Except FileError Unit)
  /-- Puts a text into a file. -/
  write : String → String → m (Except FileError Unit)

/-- The text of a file. -/
def Access.readText {m : Type → Type} [Monad m] (a : Access m) (path : String) :
    m (Except FileError String) := do
  match ← a.read path with
  | .error e => return .error e
  | .ok bytes =>
    match String.fromUTF8? bytes with
    | some text => return .ok text
    | none => return .error .notText

end RouteDocs.Files
