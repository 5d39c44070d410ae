/-
  Files.Path — the names of files.

  A path is a text of names separated by `/`.  It starts at the root if its text
  does, else at the working directory; `.` stays in a directory and `..` leaves
  it.

  * `Path.ofText`: the steps that a path takes;
  * `Path.parents`: the directories above what it names;
  * `Path.below`: the path of a name in a directory.
-/
import RecordFilter.Text

namespace RecordFilter

/-- A step from a directory. -/
inductive Step where
  | stay
  | up
  | down (name : Text)
  deriving DecidableEq, Repr

/-- A path taken apart. -/
structure Path where
  /-- Whether the path starts at the root. -/
  absolute : Bool
  steps : List Step
  /-- Whether the path ends with a separator and so can only name a directory. -/
  closed : Bool
  deriving DecidableEq, Repr

/-- The step that a name stands for. -/
def Step.ofName (name : Text) : Step :=
  if name = ['.'] then stay else if name = ['.', '.'] then up else down name

namespace Path

/-- The character between two names. -/
def separator : Char := '/'

/-- The path with the given text.  Repeated separators count once. -/
def ofText (t : Text) : Path where
  absolute := t.head? == some separator
  steps := ((t.pieces separator).filter (· ≠ [])).map Step.ofName
  closed := t.getLast? == some separator

/-- The beginnings of a path that lead to a file or directory of their own, the
    longest first: they end with a name or `..`, or are a lone `.`.  The path is
    given by its names, the last first. -/
def beginnings : List Text → List Text
  | [] => []
  | name :: names =>
    if name = [] ∨ (name = ['.'] ∧ names ≠ []) then beginnings names
    else Text.join [separator] (name :: names).reverse :: beginnings names

/-- The paths of the directories above what a path names, the innermost first. -/
def parents (t : Text) : List Text := (beginnings (t.pieces separator).reverse).tail

/-- The path of `name` in the directory with the path `directory`. -/
def below (directory name : Text) : Text :=
  if directory = [] ∨ directory.getLast? = some separator then directory ++ name
  else directory ++ separator :: name

/-- The path by which a command is told to read its standard input. -/
def standardInput : Text := ['-']

/-- Whether a path means the standard input: a lone `-`, with separators or `.`
    after it at most. -/
def isStandardInput (t : Text) : Bool :=
  let p := ofText t
  !p.absolute && p.steps.head? == some (.down standardInput) && p.steps.tail.all (· == .stay)

end Path

end RecordFilter
