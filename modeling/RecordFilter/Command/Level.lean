/-
  Command.Level — the words of a command line.

  A command line is read in levels: the flags before the name of a command, the
  arguments of the command, and for settings those of a second command.  Every
  level knows its own flags, parameters and operands, and the common flags count
  on each of them.

  * `Flag`, `Parameter`, `Operand`: the kinds of arguments;
  * `Verb`: the names of commands;
  * `Level`: what may stand on a level, and `Level.first`, `Level.after`.
-/
import RecordFilter.Host

namespace RecordFilter

/-! ## Arguments -/

/-- An argument that is either given or not. -/
inductive Flag where
  | verbose
  | quiet
  | json
  | noColor
  /-- Every match, however many. -/
  | all
  /-- Even if the file is there. -/
  | force
  | help
  | version
  deriving DecidableEq, Repr

/-- The long name of a flag. -/
def Flag.long : Flag → Text
  | verbose => "verbose".toList
  | quiet => "quiet".toList
  | json => "json".toList
  | noColor => "no-color".toList
  | all => "all".toList
  | force => "force".toList
  | help => "help".toList
  | version => "version".toList

/-- The letter of a flag, if it has one. -/
def Flag.short? : Flag → Option Char
  | verbose => some 'v'
  | quiet => some 'q'
  | help => some 'h'
  | version => some 'V'
  | _ => none

/-- What a flag is good for. -/
def Flag.purpose : Flag → Text
  | verbose => "Verbose output (show debug information)".toList
  | quiet => "Quiet mode (errors only)".toList
  | json => "Force JSON output".toList
  | noColor => "Disable colors in output".toList
  | all => "Return every match (no limit)".toList
  | force => "Overwrite an existing file".toList
  | help => "Print help".toList
  | version => "Print version".toList

/-- An argument with a value. -/
inductive Parameter where
  | input
  | limit
  | cursor
  deriving DecidableEq, Repr

/-- The long name of a parameter. -/
def Parameter.long : Parameter → Text
  | input => "input".toList
  | limit => "limit".toList
  | cursor => "cursor".toList

/-- The letter of a parameter, if it has one. -/
def Parameter.short? : Parameter → Option Char
  | input => some 'i'
  | limit => some 'l'
  | cursor => none

/-- What a parameter is good for. -/
def Parameter.purpose : Parameter → Text
  | input => "Records file (JSON array), or '-' for stdin".toList
  | limit => "Maximum matches per page (default: from config, else 50)".toList
  | cursor => "Record index to resume from (from a previous page) [default: 0]".toList

/-- Whether a parameter may have the given value. -/
def Parameter.accepts : Parameter → Text → Bool
  | input, value => value != []
  | limit, value | cursor, value => (Text.signedNumeral? value).isSome

/-- Whether a parameter has to be given. -/
def Parameter.isRequired : Parameter → Bool
  | input => true
  | limit | cursor => false

/-- An argument that is told by its place. -/
structure Operand where
  /-- How the operand is shown. -/
  form : Text
  purpose : Text
  /-- What the operand may be; anything if nothing is named. -/
  choices : List Text
  deriving DecidableEq, Repr

/-- An operand that may be anything. -/
def Operand.any (name purpose : String) : Operand :=
  ⟨'<' :: name.toList ++ ['>'], purpose.toList, []⟩

/-- Whether an operand may be the given text. -/
def Operand.accepts (operand : Operand) (t : Text) : Bool :=
  operand.choices.isEmpty || operand.choices.contains t

/-- The operand that names a shell. -/
def Shell.operand : Operand where
  form := "<SHELL>".toList
  purpose := "Shell to generate completions for [possible values: ".toList ++
    Text.join ", ".toList (all.map name) ++ [']']
  choices := all.map name

/-! ## Verbs -/

/-- The name of a command. -/
inductive Verb where
  | validate
  | blocks
  | compile
  | render
  | scan
  | config
  | completions
  | showSettings
  | createSettings
  | changeSetting
  | settingsPath
  | help
  deriving DecidableEq, Repr

/-- The full spelling of a verb. -/
def Verb.name : Verb → Text
  | validate => "validate".toList
  | blocks => "blocks".toList
  | compile => "compile".toList
  | render => "render".toList
  | scan => "scan".toList
  | config => "config".toList
  | completions => "completions".toList
  | showSettings => "show".toList
  | createSettings => "init".toList
  | changeSetting => "set".toList
  | settingsPath => "path".toList
  | help => "help".toList

/-- The letter of a verb, if it has one. -/
def Verb.short? : Verb → Option Char
  | validate => some 'v'
  | blocks => some 'b'
  | compile => some 'c'
  | render => some 'r'
  | scan => some 's'
  | _ => none

/-- Whether a verb may be spelled like this. -/
def Verb.isSpelled (t : Text) (verb : Verb) : Bool :=
  t == verb.name || verb.short?.any fun c => t == [c]

/-- What a verb is good for. -/
def Verb.purpose : Verb → Text
  | validate => "Check a query against the character allow-list".toList
  | blocks => "Show the blocks a query resolves into".toList
  | compile => "Compile a query and print its predicate tree".toList
  | render => "Render a query as a DynamoDB filter expression".toList
  | scan => "Run a query against a JSON array of records".toList
  | config => "View and edit configuration".toList
  | completions => "Generate shell completions".toList
  | showSettings => "Show current configuration".toList
  | createSettings => "Write a default config file".toList
  | changeSetting => "Set a configuration value".toList
  | settingsPath => "Print config file path".toList
  | help => "Print this message or the help of the given subcommand(s)".toList

/-- The operands of a verb. -/
def Verb.operands : Verb → List Operand
  | validate => [.any "QUERY" "Filter query (e.g., 'site==\"north\"AND~~consented')"]
  | blocks | compile | render | scan => [.any "QUERY" "Filter query"]
  | completions => [Shell.operand]
  | changeSetting =>
    [.any "KEY" "Configuration key (e.g., output.color, scan.page_size)",
      .any "VALUE" "Configuration value"]
  | help => [⟨"[COMMAND]...".toList, "Print help for the subcommand(s)".toList, []⟩]
  | config | showSettings | createSettings | settingsPath => []

/-- The verbs that may follow a verb. -/
def Verb.verbs : Verb → List Verb
  | config => [showSettings, createSettings, changeSetting, settingsPath, help]
  | _ => []

/-! ## Levels -/

/-- What may stand on a level of the command line. -/
structure Level where
  /-- The words that lead to the level, the name of the program first. -/
  words : List Text
  purpose : Text
  /-- The parameters of this level alone. -/
  parameters : List Parameter
  /-- The flags of this level alone. -/
  own : List Flag
  /-- The flags that it shares with others. -/
  common : List Flag
  operands : List Operand
  verbs : List Verb
  /-- Whether one of the verbs has to follow. -/
  needsVerb : Bool
  deriving DecidableEq, Repr

namespace Level

/-- The flags that make an answer differ. -/
def mannerFlags : List Flag := [.verbose, .quiet, .json, .noColor]

/-- The flags that ask for information. -/
def inquiryFlags : List Flag := [.help, .version]

/-- The level before any command. -/
def first : Level where
  words := ["pf".toList]
  purpose := "Command-line tool for compiling and testing portal record filters".toList
  parameters := []
  own := []
  common := mannerFlags ++ inquiryFlags
  operands := []
  verbs := [.validate, .blocks, .compile, .render, .scan, .config, .completions, .help]
  needsVerb := true

/-- The level after a verb. -/
def after (level : Level) (verb : Verb) : Level where
  words := level.words ++ [verb.name]
  purpose := verb.purpose
  parameters := match verb with
    | .scan => [.input, .limit, .cursor]
    | _ => []
  own := match verb with
    | .scan => [.all]
    | .createSettings => [.force]
    | _ => []
  common := match verb with
    | .help => []
    | _ => mannerFlags ++ inquiryFlags
  operands := verb.operands
  verbs := verb.verbs
  needsVerb := false

/-- All flags of a level. -/
def flags (level : Level) : List Flag := level.own ++ level.common

/-- The verb with the given spelling. -/
def verb? (level : Level) (t : Text) : Option Verb := level.verbs.find? (·.isSpelled t)

end Level

end RecordFilter
