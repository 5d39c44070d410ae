/-
  Settings — what a user has set for good.

  There are three settings: whether reports use colors, whether answers are
  JSON, and how many matches a page holds.  Each may be unset.

  * `Settings.change`: giving a setting the value of a text;
  * `Settings.text?`: the form in which settings are saved;
  * `Settings.Error`: what can go wrong, and its wording.
-/
import RecordFilter.Files
import RecordFilter.Json
import RecordFilter.Toml.Number

namespace RecordFilter

/-- What a user has set. -/
structure Settings where
  /-- The version of the form in which settings are saved. -/
  version : Nat
  color : Option Bool
  json : Option Bool
  pageSize : Option Nat
  deriving DecidableEq, Repr

namespace Settings

/-- The current version of the saved form. -/
def currentVersion : Nat := 1

/-- Nothing is set. -/
def unset : Settings := ⟨currentVersion, none, none, none⟩

/-! ## Errors -/

/-- What can go wrong with settings. -/
inductive Error where
  /-- No environment variable tells where the settings are. -/
  | noPath
  | unreadable (cause : FileError)
  | malformed
  /-- The settings were saved in a later version of the form. -/
  | tooNew (version : Nat)
  | unknownKey (key : Text)
  | notABoolean (value : Text)
  | notAPageSize (value : Text)
  /-- The page size is beyond the integers of the saved form. -/
  | unwritable (pageSize : Nat)
  | directoryFailed (cause : FileError)
  | writeFailed (cause : FileError)
  | createFailed (cause : FileError)
  | alreadyThere (path : Text)
  deriving DecidableEq, Repr

/-- The wording of an error. -/
def Error.message : Error → Text
  | noPath => "Could not determine config directory".toList
  | unreadable e => "Failed to read config: ".toList ++ e.message
  | malformed => "Failed to parse config: not a TOML file of settings".toList
  | tooNew v =>
    "Config version ".toList ++ Text.ofNat v ++ " is newer than this pf supports (".toList ++
      Text.ofNat currentVersion ++ [')']
  | unknownKey key =>
    "Unknown config key '".toList ++ key ++
      "'. Valid keys: output.color, output.json, scan.page_size".toList
  | notABoolean value =>
    "Invalid boolean value '".toList ++ value ++
      "'. Use true/false, yes/no, 1/0, or on/off".toList
  | notAPageSize value =>
    "Invalid page_size value '".toList ++ value ++ "'. Use a positive integer".toList
  | unwritable _ => "Failed to serialize config: out-of-range value for u64 type".toList
  | directoryFailed e => "Failed to create config directory: ".toList ++ e.message
  | writeFailed e => "Failed to write config: ".toList ++ e.message
  | createFailed e => "Failed to create config file: ".toList ++ e.message
  | alreadyThere path =>
    "Config file already exists at ".toList ++ path ++ " (use --force to overwrite)".toList

/-! ## Changing a setting -/

/-- The truth value that a word stands for, in upper or lower case. -/
def boolean? (value : Text) : Option Bool :=
  let word := value.map Char.toLower
  if ["true".toList, "yes".toList, "1".toList, "on".toList].contains word then some true
  else if ["false".toList, "no".toList, "0".toList, "off".toList].contains word then some false
  else none

/-- The truth value of a text, or the error. -/
def readBoolean (value : Text) : Except Error Bool :=
  match boolean? value with
  | some b => .ok b
  | none => .error (.notABoolean value)

/-- The page size of a text, or the error.  It has to be positive. -/
def readPageSize (value : Text) : Except Error Nat :=
  match Text.signedNumeral? value with
  | some (n + 1) => .ok (n + 1)
  | _ => .error (.notAPageSize value)

/-- Gives the setting with the given key the value of a text. -/
def change (s : Settings) (key value : Text) : Except Error Settings :=
  if key = "output.color".toList then
    (readBoolean value).map fun b => { s with color := some b }
  else if key = "output.json".toList then
    (readBoolean value).map fun b => { s with json := some b }
  else if key = "scan.page_size".toList then
    (readPageSize value).map fun n => { s with pageSize := some n }
  else .error (.unknownKey key)

/-! ## Written forms -/

/-- A truth value as it is written. -/
def booleanText (b : Bool) : Text := (if b then "true" else "false").toList

/-- A line of a saved setting, if it is set. -/
def savedLine (name : Text) (value : Option Text) : Text :=
  (value.map fun v => Text.line (name ++ " = ".toList ++ v)).getD []

/-- The saved form: a line for each setting under the header of its section. -/
def savedText (s : Settings) : Text :=
  Text.line ("version = ".toList ++ Text.ofNat s.version) ++ Text.line [] ++
    Text.line "[output]".toList ++
    savedLine "color".toList (s.color.map booleanText) ++
    savedLine "json".toList (s.json.map booleanText) ++ Text.line [] ++
    Text.line "[scan]".toList ++
    savedLine "page_size".toList (s.pageSize.map Text.ofNat)

/-- The saved form, unless the page size is too large for it. -/
def text? (s : Settings) : Except Error Text :=
  match s.pageSize with
  | some n => if Toml.maxInteger < n then .error (.unwritable n) else .ok s.savedText
  | none => .ok s.savedText

/-- The file that a user starts from: nothing is set, and comments tell what can
    be. -/
def starterText : Text :=
  ["# pf - Portal Filter CLI Configuration",
    "",
    "# Config schema version (do not modify)",
    "version = 1",
    "",
    "# Output preferences",
    "[output]",
    "# color = true    # Enable colors (respects NO_COLOR env)",
    "# json = false    # Always print JSON",
    "",
    "# Local scan settings",
    "[scan]",
    "# page_size = 50  # Matches per page when --limit is not given"].flatMap
  fun l => Text.line l.toList

/-- The members that are set. -/
def members (ms : List (Text × Option Json)) : Json :=
  .record (ms.filterMap fun (k, v) => v.map (k, ·))

/-- The JSON form. -/
def toJson (s : Settings) : Json := .record [
  ("version".toList, Json.ofNat s.version),
  ("output".toList, members [
    ("color".toList, s.color.map .bool), ("json".toList, s.json.map .bool)]),
  ("scan".toList, members [("page_size".toList, s.pageSize.map Json.ofNat)])]

end Settings

end RecordFilter
