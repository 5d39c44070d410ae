/-
  Host — what the system tells a run.

  * `Environment`: the variables;
  * `Shell`: the shells that complete command lines;
  * `Host`: all that a run is told, and `Host.home?`: the home directory.
-/
import RecordFilter.Text

namespace RecordFilter

/-- The environment variables. -/
abbrev Environment := List (Text × Text)

/-- A shell that can complete command lines. -/
inductive Shell where
  | bash
  | zsh
  | fish
  | powershell
  deriving DecidableEq, Repr

namespace Shell

/-- All shells. -/
def all : List Shell := [bash, zsh, fish, powershell]

/-- The name of a shell. -/
def name : Shell → Text
  | bash => "bash".toList
  | zsh => "zsh".toList
  | fish => "fish".toList
  | powershell => "powershell".toList

/-- The shell with the given name. -/
def ofName? (t : Text) : Option Shell := all.find? (·.name == t)

end Shell

/-- What a run is told by the system that it runs on, and the texts on command lines
    that are left to others. -/
structure Host where
  environment : Environment
  /-- The home directory that is kept for the user. -/
  userHome? : Option Text
  /-- What is written about arguments that are no command line. -/
  misuse : List Text → Text
  /-- The script by which a shell completes command lines. -/
  script : Shell → Text

namespace Host

/-- A host of which only the environment is known. -/
def ofEnvironment (environment : Environment) : Host where
  environment := environment
  userHome? := none
  misuse _ := []
  script _ := []

instance : Coe Environment Host := ⟨ofEnvironment⟩

/-- The home directory: the one that the environment tells, or else the one that is kept
    for the user.  An empty path does not count. -/
def home? (host : Host) : Option Text :=
  ((host.environment.lookup "HOME".toList).filter (· ≠ [])).or (host.userHome?.filter (· ≠ []))

end Host

end RecordFilter
