/-
  Settings.Reader — settings from their saved form.

  Keys that are no settings are passed over.  A section may also be given as the
  array of all its settings in order, and a date counts as a section in which
  nothing is set.

  * `Settings.ofTable?`: the settings of a table;
  * `Settings.ofText`: the settings of a text.
-/
import RecordFilter.Settings
import RecordFilter.Toml.Reader

namespace RecordFilter

namespace Settings

open Toml (Table Value)

/-- The truth value of a setting. -/
def booleanOf : Value → Option Bool
  | .boolean b => some b
  | _ => none

/-- The number of a setting, at most `limit`. -/
def numberOf (limit : Nat) : Value → Option Nat
  | .integer (.ofNat n) => if n ≤ limit then some n else none
  | _ => none

/-- A setting of a table, if it is there; fails if it is malformed. -/
def field? {α : Type} (read : Value → Option α) (table : Table) (key : Text) :
    Option (Option α) :=
  match table.lookup key with
  | none => some none
  | some v => (read v).map some

/-- The settings of the section on output. -/
def outputOf : Value → Option (Option Bool × Option Bool)
  | .table _ t | .inline t => do
    let color ← field? booleanOf t "color".toList
    let json ← field? booleanOf t "json".toList
    return (color, json)
  | .array (color :: json :: _) => do
    return (some (← booleanOf color), some (← booleanOf json))
  | .moment => some (none, none)
  | _ => none

/-- The settings of the section on scans. -/
def scanOf : Value → Option (Option Nat)
  | .table _ t | .inline t => field? (numberOf Toml.maxInteger) t "page_size".toList
  | .array (pageSize :: _) => (numberOf Toml.maxInteger pageSize).map some
  | .moment => some none
  | _ => none

/-- The largest version: 32 bits. -/
def maxVersion : Nat := 0xFFFFFFFF

/-- The settings of a table, in the version that it tells. -/
def ofTable? (table : Table) : Option Settings := do
  let version ← field? (numberOf maxVersion) table "version".toList
  let output ← field? outputOf table "output".toList
  let scan ← field? scanOf table "scan".toList
  let (color, json) := output.getD (none, none)
  return ⟨version.getD currentVersion, color, json, scan.getD none⟩

/-- The settings of a text, in the current version. -/
def ofText (t : Text) : Except Error Settings :=
  match (Toml.read t).bind ofTable? with
  | none => .error .malformed
  | some s =>
    if currentVersion < s.version then .error (.tooNew s.version)
    else .ok { s with version := currentVersion }

end Settings

end RecordFilter
