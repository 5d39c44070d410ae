/-
  Command.Help — what the program tells about itself.

  * `Level.usage`: how a command line goes on;
  * `Level.helpText`: everything that may stand on a level, with its purpose;
  * `Level.versionText`: the name and version of the program.
-/
import RecordFilter.Command.Level

namespace RecordFilter

/-! ## Options -/

/-- A flag or a parameter as help shows it. -/
structure HelpOption where
  short? : Option Char
  long : Text
  takesValue : Bool
  purpose : Text
  deriving DecidableEq, Repr

/-- A flag as help shows it. -/
def HelpOption.ofFlag (f : Flag) : HelpOption := ⟨f.short?, f.long, false, f.purpose⟩

/-- A parameter as help shows it. -/
def HelpOption.ofParameter (p : Parameter) : HelpOption := ⟨p.short?, p.long, true, p.purpose⟩

/-- The sign for a value: the name in capitals. -/
def valueSign (name : Text) : Text := '<' :: name.map Char.toUpper ++ ['>']

namespace HelpOption

/-- The long spelling, with the sign for its value. -/
def spelling (o : HelpOption) : Text :=
  '-' :: '-' :: o.long ++ if o.takesValue then ' ' :: valueSign o.long else []

/-- Both spellings.  The long ones stand below each other. -/
def spellings (o : HelpOption) : Text :=
  match o.short? with
  | some c => '-' :: c :: ", ".toList ++ o.spelling
  | none => Text.blanks 4 ++ o.spelling

/-- What options beside each other are ordered by: the letter, else the name. -/
def key (o : HelpOption) : Text :=
  match o.short? with
  | some c => [c]
  | none => o.long

/-- The first options of both lists, then the second ones, and so on. -/
def alternate : List HelpOption → List HelpOption → List HelpOption
  | o :: os, p :: ps =>
    (if o.key.precedes p.key then [o, p] else [p, o]) ++ alternate os ps
  | [], ps => ps
  | os, [] => os

end HelpOption

/-! ## Help on a level -/

namespace Level

/-- The options of a level in the order of help: those of its own beside the
    common ones, and at last those that ask for information. -/
def options (level : Level) : List HelpOption :=
  let own := level.parameters.map .ofParameter ++ level.own.map .ofFlag
  let isInquiry (f : Flag) : Bool := inquiryFlags.contains f
  HelpOption.alternate own ((level.common.filter (!isInquiry ·)).map .ofFlag) ++
    (level.common.filter isInquiry).map .ofFlag

/-- How a command line goes on after the words of a level. -/
def usage (level : Level) : Text :=
  let required := level.parameters.filter (·.isRequired)
  Text.join [' '] (level.words ++
    (if level.common = [] then [] else ["[OPTIONS]".toList]) ++
    required.map (fun p => (HelpOption.ofParameter p).spelling) ++
    level.operands.map (·.form) ++
    if level.verbs = [] then []
    else if level.needsVerb then ["<COMMAND>".toList] else ["[COMMAND]".toList])

/-- A heading with rows of names and purposes below it, or nothing at all. -/
def helpSection (heading : String) (rows : List (Text × Text)) : Text :=
  let width := (rows.map (·.1.length)).foldl max 0
  if rows = [] then [] else
    Text.line [] ++ Text.line heading.toList ++
      rows.flatMap fun (name, purpose) =>
        Text.line (Text.blanks 2 ++ name.padRight (width + 2) ++ purpose)

/-- Everything that may stand on a level, with its purpose. -/
def helpText (level : Level) : Text :=
  Text.line level.purpose ++ Text.line [] ++
    Text.line ("Usage: ".toList ++ level.usage) ++
    helpSection "Commands:" (level.verbs.map fun v => (v.name, v.purpose)) ++
    helpSection "Arguments:" (level.operands.map fun o => (o.form, o.purpose)) ++
    helpSection "Options:" (level.options.map fun o => (o.spellings, o.purpose))

/-- The version of the program. -/
def version : Text := "0.1.0".toList

/-- The words of a level and the version. -/
def versionText (level : Level) : Text :=
  Text.line (Text.join ['-'] level.words ++ ' ' :: version)

example : (first.after .scan).usage = "pf scan [OPTIONS] --input <INPUT> <QUERY>".toList := by
  decide +kernel

end Level

end RecordFilter
