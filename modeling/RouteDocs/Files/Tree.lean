import RouteDocs.Files.Access
import RouteDocs.Files.Path

/-!
# File trees

A file system that is held as a value: its directories and its files.

## Main definitions

* `Files.Tree`, `Tree.ofFiles`: the file system, and one that holds some files.
* `Tree.walk`: the place that a path leads to.
* `Tree.access`: the operations on files.
-/

namespace RouteDocs.Files

/-- The names on the way from the root to a place. -/
abbrev Location := List String

/-- A file system. -/
structure Tree where
  workingDirectory : Location
  directories : List Location
  files : List (Location × ByteArray)

namespace Tree

/-- A place and the places around it. -/
def around (l : Location) : List Location := (List.range (l.length + 1)).map l.take

/-- The file system that holds files below a working directory. -/
def ofFiles (workingDirectory : Location) (files : List (String × ByteArray)) : Tree :=
  let files := files.map fun (path, content) => (workingDirectory ++ components path, content)
  { workingDirectory := workingDirectory
    directories := around workingDirectory ++ files.flatMap fun (l, _) => around l.dropLast
    files := files }

/-- The content of the file at a place. -/
def file? (t : Tree) (l : Location) : Option ByteArray := t.files.lookup l

/-- There is a directory at a place. -/
def isDirectory (t : Tree) (l : Location) : Bool := l = [] || t.directories.contains l

/-- A place that has to be a directory. -/
def directory (t : Tree) (l : Location) : Except FileError Location :=
  if t.isDirectory l then .ok l
  else if (t.file? l).isSome then .error .notDirectory
  else .error .notFound

/-- The place that components lead to from another place. Each starts from a directory. -/
def walk (t : Tree) (l : Location) : List String → Except FileError Location
  | [] => .ok l
  | c :: cs => do
    let l ← t.directory l
    if c = "" || c = "." then walk t l cs
    else if c = ".." then walk t l.dropLast cs
    else walk t (l ++ [c]) cs

/-- The place where the components of a path start. -/
def origin (t : Tree) (path : String) : Location :=
  if path.toList.head? = some '/' then [] else t.workingDirectory

/-- The place that a path leads to. -/
def locate (t : Tree) (path : String) : Except FileError Location :=
  t.walk (t.origin path) (components path)

/-- There is a file at a path. -/
def isFile (t : Tree) (path : String) : Bool :=
  match t.locate path with
  | .ok l => (t.file? l).isSome
  | .error _ => false

/-- The content of a file. -/
def read (t : Tree) (path : String) : Except FileError ByteArray := do
  let l ← t.locate path
  match t.file? l with
  | some content => return content
  | none => .error (if t.isDirectory l then .isDirectory else .notFound)

/-- The directory and the name that a path without slashes at its end leads to. There is no name if
it ends with dots, or is the root. -/
def target (t : Tree) (path : String) : Except FileError (Location × Option String) := do
  let cs := (components path).reverse.dropWhile (· = "")
  match cs with
  | [] => return ([], none)
  | c :: cs =>
    let l ← t.directory (← t.walk (t.origin path) cs.reverse)
    return (l, if c = "." || c = ".." then none else some c)

/-- Makes one directory. -/
def makeDirectory (t : Tree) (path : String) : Except FileError Tree := do
  match ← t.target path with
  | (_, none) => .error .exists
  | (l, some name) =>
    let l := l ++ [name]
    if t.isDirectory l || (t.file? l).isSome then .error .exists
    else return { t with directories := l :: t.directories }

/-- The path is a directory. -/
def leadsToDirectory (t : Tree) (path : String) : Bool :=
  match t.locate path with
  | .ok l => t.isDirectory l
  | .error _ => false

/-- Makes a directory and, as long as one is missing, those around it. -/
def makeDirectories : (fuel : Nat) → (t : Tree) → (path : String) → Except FileError Unit × Tree
  | 0, t, _ => (.error .notFound, t)
  | fuel + 1, t, path =>
    match t.makeDirectory path with
    | .ok t => (.ok (), t)
    | .error .notFound =>
      match parent? path with
      | none => (.error .notFound, t)
      | some above =>
        match makeDirectories fuel t above with
        | (.error e, t) => (.error e, t)
        | (.ok (), t) =>
          match t.makeDirectory path with
          | .ok t => (.ok (), t)
          | .error e => (if t.leadsToDirectory path then .ok () else .error e, t)
    | .error e => (if t.leadsToDirectory path then .ok () else .error e, t)

/-- Sets the content of the file at a place. -/
def setFile (t : Tree) (l : Location) (content : ByteArray) : Tree :=
  { t with files := (l, content) :: t.files.filter (·.1 ≠ l) }

/-- Puts a content into a file. A slash at the end of the path means a directory. -/
def write (t : Tree) (path : String) (content : ByteArray) : Except FileError Tree := do
  match ← t.target path with
  | (_, none) => .error .isDirectory
  | (l, some name) =>
    let l := l ++ [name]
    if t.isDirectory l || path.toList.getLast? = some '/' then .error .isDirectory
    else return t.setFile l content

/-- The operations on files. -/
def access : Access (StateM Tree) where
  isFile path := fun t => (t.isFile path, t)
  read path := fun t => (t.read path, t)
  makeDirectories path := fun t => makeDirectories (path.length + 1) t path
  write path content := fun t =>
    match t.write path content.toUTF8 with
    | .ok t => (.ok (), t)
    | .error e => (.error e, t)

end Tree

end RouteDocs.Files
