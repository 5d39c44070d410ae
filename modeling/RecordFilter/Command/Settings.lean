/-
  Command.Settings — the commands on settings.

  * `Command.reportSettings`, `Command.reportPath`: what is set, and where;
  * `Command.createFile`, `Command.saveSetting`: writing the file.
-/
import RecordFilter.Command.Procedure
import RecordFilter.Command.Context

namespace RecordFilter

/-- The sections and the lines of what is set. -/
def Settings.report (s : Settings) : Text :=
  let item (name : String) (value : Option Text) : Text :=
    (value.map fun v => Text.line (Text.blanks 2 ++ name.toList ++ ": ".toList ++ v)).getD []
  Text.line "[output]".toList ++
    item "color" (s.color.map Settings.booleanText) ++
    item "json" (s.json.map Settings.booleanText) ++
    Text.line [] ++ Text.line "[scan]".toList ++
    item "page_size" (s.pageSize.map Text.ofNat)

namespace Command

open Procedure

/-- Shows what is set, and the file that tells. -/
def reportSettings (context : Context) (host : Host) : Procedure Unit := do
  let s ← ofSettings (Settings.load host (← files))
  let p ← ofSettings (Settings.path host)
  let isThere := (← files).has p
  write (context.answer
    (.record [("path".toList, .string p), ("exists".toList, .bool isThere),
      ("config".toList, s.toJson)])
    (Text.line (context.palette.paint .boldGreen "Configuration".toList) ++ Text.line [] ++
      Text.line ("File: ".toList ++ p) ++
      Text.line ("Exists: ".toList ++ Settings.booleanText isThere) ++ Text.line [] ++
      if isThere then s.report
      else Text.line
        "(No config file exists. Run 'pf config init' to create one.)".toList))

/-- Shows the path of the file of settings, even if reports are left out. -/
def reportPath (context : Context) (host : Host) : Procedure Unit := do
  let p ← ofSettings (Settings.path host)
  write ({ context with quiet := false }.answer
    (.record [("path".toList, .string p), ("exists".toList, .bool ((← files).has p))])
    (Text.line p))

/-- Writes the file that a user starts from, in place of another one only if
    `force` is set. -/
def createFile (context : Context) (host : Host) (force : Bool) : Procedure Unit := do
  let p ← ofSettings (Settings.path host)
  if (← files).has p && !force then throw (.settings (.alreadyThere p))
  change (Settings.create · p)
  write (context.answer
    (.record [("status".toList, .string "success".toList), ("path".toList, .string p)])
    (Text.line ("Created default config at: ".toList ++ p)))

/-- Changes a setting and saves all of them. -/
def saveSetting (context : Context) (host : Host) (key value : Text) : Procedure Unit := do
  let s ← ofSettings (Settings.load host (← files))
  let s ← ofSettings (s.change key value)
  let p ← ofSettings (Settings.path host)
  change (Settings.save · p s)
  write (context.answer
    (.record [("status".toList, .string "success".toList), ("key".toList, .string key),
      ("value".toList, .string value), ("path".toList, .string p)])
    (Text.line ("Set ".toList ++ key ++ " = ".toList ++ value)))

end Command

end RecordFilter
