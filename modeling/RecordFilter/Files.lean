/-
  Files — a tree of files and directories.

  A location is the list of the names from a file or directory up to the root.
  The root is always a directory, and relative paths start at the working
  directory.  Nothing stands in the tree but directories and regular files, and a
  file that cannot be written keeps what it holds.

  * `Files.node?`, `Files.put`: what stands at a location;
  * `Files.locate`: where a path leads;
  * `Files.read`, `Files.write`: the text of a file;
  * `Files.makeParents`: the directories above a path.
-/
import RecordFilter.Files.Path

namespace RecordFilter

/-- What a file, or the standard input, holds. -/
inductive Contents where
  | text (t : Text)
  /-- Bytes that are not the UTF-8 form of a text. -/
  | binary
  deriving DecidableEq, Repr

/-- Why a file cannot be used. -/
inductive FileError where
  | notFound
  | alreadyExists
  | notADirectory
  | isADirectory
  | nameTooLong
  | notText
  deriving DecidableEq, Repr

/-- The wording of a file error, with its system number if it has one. -/
def FileError.message : FileError → Text
  | notFound => "No such file or directory (os error 2)".toList
  | alreadyExists => "File exists (os error 17)".toList
  | notADirectory => "Not a directory (os error 20)".toList
  | isADirectory => "Is a directory (os error 21)".toList
  | nameTooLong => "File name too long (os error 36)".toList
  | notText => "stream did not contain valid UTF-8".toList

/-- The text of contents. -/
def Contents.text? : Contents → Except FileError Text
  | text t => .ok t
  | binary => .error .notText

/-- The names from a file or directory up to the root. -/
abbrev Location := List Text

/-- What stands at a location. -/
inductive Node where
  | directory
  | file (contents : Contents)
  deriving DecidableEq, Repr

/-- A tree of files and directories. -/
structure Files where
  /-- Where relative paths start. -/
  working : Location
  /-- What was put where; of one location the first entry counts. -/
  nodes : List (Location × Node)
  deriving Repr

namespace Files

/-! ## Locations -/

/-- What stands at a location, if anything does. -/
def node? (files : Files) (place : Location) : Option Node :=
  if place = [] then some .directory else files.nodes.lookup place

/-- Puts a node at a location. -/
def put (files : Files) (place : Location) (node : Node) : Files :=
  { files with nodes := (place, node) :: files.nodes }

theorem node?_put_self {files : Files} {place : Location} {node : Node} (h : place ≠ []) :
    (files.put place node).node? place = some node := by
  simp [node?, put, h]

theorem node?_put_of_ne {files : Files} {place other : Location} {node : Node}
    (h : other ≠ place) : (files.put place node).node? other = files.node? other := by
  have : (other == place) = false := by simpa using h
  simp only [node?, put, List.lookup_cons, this]

/-- The most bytes that a name may take. -/
def maxName : Nat := 255

/-- The most bytes that a path may take. -/
def maxPath : Nat := 4095

/-- Refuses a location that is not a directory. -/
def expectDirectory (files : Files) (place : Location) : Except FileError Unit :=
  match files.node? place with
  | some .directory => .ok ()
  | some (.file _) => .error .notADirectory
  | none => .error .notFound

/-- The location of a name in a directory, whether or not anything stands there. -/
def child (files : Files) (directory : Location) (name : Text) : Except FileError Location := do
  files.expectDirectory directory
  if maxName < name.byteCount then throw .nameTooLong
  return name :: directory

/-- Follows steps from a location. -/
def walk (files : Files) (origin : Location) : List Step → Except FileError Location
  | [] => .ok origin
  | .stay :: steps => do
    files.expectDirectory origin
    files.walk origin steps
  | .up :: steps => do
    files.expectDirectory origin
    files.walk origin.tail steps
  | .down name :: steps => do
    let next ← files.child origin name
    if (files.node? next).isNone then throw .notFound
    files.walk next steps

/-- Where a path starts. -/
def start (files : Files) (p : Path) : Location := if p.absolute then [] else files.working

/-- Refuses the empty path and paths that are too long. -/
def checkPath (path : Text) : Except FileError Unit := do
  if path = [] then throw .notFound
  if maxPath < path.byteCount then throw .nameTooLong

/-- The location that a path leads to. -/
def locate (files : Files) (path : Text) : Except FileError Location := do
  checkPath path
  let p := Path.ofText path
  let place ← files.walk (files.start p) p.steps
  if p.closed then files.expectDirectory place
  return place

/-- Whether a path leads anywhere. -/
def has (files : Files) (path : Text) : Bool := (files.locate path).toBool

/-! ## Reading and writing -/

/-- The text of the file that a path names. -/
def read (files : Files) (path : Text) : Except FileError Text := do
  match files.node? (← files.locate path) with
  | some (.file contents) => contents.text?
  | some .directory => throw .isADirectory
  | none => throw .notFound

/-- Gives the file that a path names a new text.  The file need not be there,
    but its directory must. -/
def write (files : Files) (path text : Text) : Except FileError Files := do
  checkPath path
  let p := Path.ofText path
  match p.steps.getLast? with
  | some (.down name) =>
    let directory ← files.walk (files.start p) p.steps.dropLast
    files.expectDirectory directory
    if p.closed then throw .isADirectory
    let place ← files.child directory name
    match files.node? place with
    | some .directory => throw .isADirectory
    | _ => return files.put place (.file (.text text))
  | _ =>
    let _ ← files.walk (files.start p) p.steps
    throw .isADirectory

/-! ## Making directories -/

/-- Makes the directory that a path names. -/
def makeDirectory (files : Files) (path : Text) : Except FileError Files := do
  checkPath path
  let p := Path.ofText path
  let directory ← files.walk (files.start p) p.steps.dropLast
  match p.steps.getLast? with
  | some (.down name) =>
    let place ← files.child directory name
    if (files.node? place).isSome then throw .alreadyExists
    return files.put place .directory
  | _ =>
    files.expectDirectory directory
    throw .alreadyExists

/-- Whether a path leads to a directory. -/
def isDirectory (files : Files) (path : Text) : Bool :=
  match files.locate path with
  | .ok place => files.node? place == some .directory
  | .error _ => false

/-- Makes the directory that the first path names, and before it the one of the
    next path if that is missing, and so on.  Directories made before an error
    stay. -/
def makeDirectories (files : Files) : List Text → Files × Except FileError Unit
  | [] => (files, .ok ())
  | path :: outer =>
    -- an error does not matter if the directory is there
    let settle (files : Files) (e : FileError) : Files × Except FileError Unit :=
      (files, if files.isDirectory path then .ok () else .error e)
    match files.makeDirectory path with
    | .ok files => (files, .ok ())
    | .error .notFound =>
      match files.makeDirectories outer with
      | (files, .ok ()) =>
        match files.makeDirectory path with
        | .ok files => (files, .ok ())
        | .error e => settle files e
      | failed => failed
    | .error e => settle files e

/-- Makes the directories above a path that are missing. -/
def makeParents (files : Files) (path : Text) : Files × Except FileError Unit :=
  files.makeDirectories (Path.parents path)

/-- A tree with nothing but the working directory and those above it. -/
def empty (working : Location) : Files :=
  ⟨working, (List.range working.length).map fun i => (working.drop i, .directory)⟩

end Files

end RecordFilter
