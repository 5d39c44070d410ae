/-
  Settings.Store — where settings are kept.

  The host tells the file of the settings.  Without that file nothing is set.

  * `Settings.path`: the path of the file;
  * `Settings.load`: the settings kept there;
  * `Settings.save`, `Settings.create`: writing the file.
-/
import RecordFilter.Host
import RecordFilter.Settings.Reader

namespace RecordFilter

namespace Settings

/-- The path of the file of settings: the one that is asked for, else a fixed
    one below the directory of all settings, else below the home directory. -/
def path (host : Host) : Except Error Text :=
  let file (directory : Text) : Text :=
    Path.below (Path.below directory "pf".toList) "config.toml".toList
  match host.environment.lookup "PF_CONFIG".toList with
  | some p => .ok p
  | none =>
    match host.environment.lookup "XDG_CONFIG_HOME".toList with
    | some directory => .ok (file directory)
    | none =>
      match host.home? with
      | some home => .ok (file (Path.below home ".config".toList))
      | none => .error .noPath

/-- The settings that are kept. -/
def load (host : Host) (files : Files) : Except Error Settings := do
  let p ← path host
  if files.has p then
    match files.read p with
    | .ok t => ofText t
    | .error e => throw (.unreadable e)
  else return unset

/-- Writes the file of settings, and makes its directory before.  A text that
    cannot be had stops this after the directory is made. -/
def store (files : Files) (p : Text) (text : Except Error Text) (failed : FileError → Error) :
    Files × Except Error Unit :=
  match files.makeParents p with
  | (files, .error e) => (files, .error (.directoryFailed e))
  | (files, .ok ()) =>
    match text with
    | .error e => (files, .error e)
    | .ok t =>
      match files.write p t with
      | .error e => (files, .error (failed e))
      | .ok files => (files, .ok ())

/-- Saves settings. -/
def save (files : Files) (p : Text) (s : Settings) : Files × Except Error Unit :=
  store files p s.text? .writeFailed

/-- Writes the file that a user starts from. -/
def create (files : Files) (p : Text) : Files × Except Error Unit :=
  store files p (.ok starterText) .createFailed

end Settings

end RecordFilter
