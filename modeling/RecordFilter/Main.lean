/-
  Main — the command line.

  A run is a function (`Invocation.run`); here its arguments are gathered from
  the system and its effects are carried out.  Of the files only those that the
  run can touch are looked at: the file of settings, the file of records and the
  directories above them.

  * `readUserHome`: the home directory that is kept for the user;
  * `lookAt`: what stands on the way of a path;
  * `apply`: the files and directories that a run made;
  * `main`: a whole run.
-/
import RecordFilter.Command.Run

namespace RecordFilter

namespace Host

/-- The environment variables that runs depend on. -/
def variableNames : List String := ["PF_CONFIG", "XDG_CONFIG_HOME", "HOME", "NO_COLOR"]

/-- The fields of the first line that has the given key among them. -/
def entry? (separator : Char) (column : Nat) (key : Text) (lines : List Text) :
    Option (List Text) :=
  (lines.map (Text.pieces separator)).find? (·[column]? == some key)

/-- The home directory that is kept for the user. -/
def readUserHome : IO (Option Text) := do
  try
    let status := (← IO.FS.lines "/proc/self/status").toList.map String.toList
    let users := (← IO.FS.lines "/etc/passwd").toList.map String.toList
    return do
      let user ← (← entry? '\t' 0 "Uid:".toList status)[1]?
      (← entry? ':' 2 user users)[5]?
  catch _ => return none

/-- The contents of bytes. -/
def contentsOf (bytes : ByteArray) : Contents :=
  match String.fromUTF8? bytes with
  | some s => .text s.toList
  | none => .binary

/-- The path of a location. -/
def nameOf (place : Location) : String :=
  String.ofList (place.reverse.flatMap fun name => Path.separator :: name)

/-- The error number of an attempt to read a directory. -/
def directoryRead : UInt32 := 21

/-- Adds what stands at a location, if anything does. -/
def lookAtPlace (files : Files) (place : Location) : IO Files := do
  if (files.node? place).isSome then return files
  try
    return files.put place (.file (contentsOf (← IO.FS.readBinFile (nameOf place))))
  catch
    | .inappropriateType _ code _ =>
      return if code = directoryRead then files.put place .directory else files
    | _ => return files

/-- Adds what stands at each location that the steps of a path pass. -/
def lookAt (files : Files) (path : Text) : IO Files := do
  let p := Path.ofText path
  let mut files := files
  let mut place := files.start p
  for step in p.steps do
    place := match step with
      | .stay => place
      | .up => place.tail
      | .down name => name :: place
    files ← lookAtPlace files place
  return files

/-- Makes the files and directories that a run put into the tree, oldest first. -/
def apply (before after : Files) : IO Unit := do
  for (place, node) in (after.nodes.take (after.nodes.length - before.nodes.length)).reverse do
    match node with
    | .directory => IO.FS.createDir (nameOf place)
    | .file (.text t) => IO.FS.writeFile (nameOf place) (String.ofList t)
    | .file .binary => pure ()

/-- The paths that a command may use. -/
def pathsOf (host : Host) : Except Stop (Manner × Command) → List Text
  | .ok (_, .scan _ input _ _ _) => input :: (Settings.path host).toOption.toList
  | _ => (Settings.path host).toOption.toList

/-- Gathers what the system tells.  Misuse is answered with the help on the first level,
    and there are no scripts. -/
def ofSystem : IO Host := do
  let mut environment : Environment := []
  for name in variableNames do
    if let some value ← IO.getEnv name then
      environment := (name.toList, value.toList) :: environment
  return {
    environment
    userHome? := ← readUserHome
    misuse := fun _ => Level.first.helpText
    script := fun _ => [] }

/-- Gathers what a run starts from. -/
def gather (args : List String) : IO Invocation := do
  let arguments := args.map String.toList
  let host ← ofSystem
  let parsed := Command.ofArguments arguments
  let working := (Text.pieces Path.separator (← IO.currentDir).toString.toList).filter (· ≠ [])
  let mut files := Files.empty working.reverse
  for path in pathsOf host parsed do
    files ← lookAt files path
  let readsInput := match parsed with
    | .ok (_, command) => command.readsStandardInput
    | .error _ => false
  let standardInput ←
    if readsInput then contentsOf <$> (← IO.getStdin).readBinToEnd else pure (.text [])
  return ⟨arguments, host, standardInput, files⟩

end Host

end RecordFilter

open RecordFilter in
/-- Runs a command line. -/
def main (args : List String) : IO UInt32 := do
  let i ← Host.gather args
  let o := i.run
  Host.apply i.files o.files
  (← IO.getStdout).putStr (String.ofList o.output)
  (← IO.getStderr).putStr (String.ofList o.errors)
  return o.status.toUInt32
