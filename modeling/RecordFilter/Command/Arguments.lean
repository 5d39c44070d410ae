/-
  Command.Arguments — what a command line asks for.

  The arguments of each level are taken in one by one.  What is asked for becomes
  clear on the last level; the flags of all levels count.

  * `Given`: the arguments of one level, and `Level.read`, which takes them in;
  * `Command`: what to do, and `Command.ofArguments`.
-/
import RecordFilter.Command.Level

namespace RecordFilter

/-! ## The arguments of a level -/

/-- Why a command line names no command to run. -/
inductive Stop where
  | misuse
  | help (level : Level)
  /-- The user asks for the version, on the given level. -/
  | version (level : Level)
  deriving DecidableEq, Repr

/-- The arguments given on a level. -/
structure Given where
  flags : List Flag
  parameters : List (Parameter × Text)
  operands : List Text
  deriving DecidableEq, Repr

namespace Given

/-- Adds a flag.  A flag counts once; those that ask for information end the
    reading. -/
def addFlag (level : Level) (g : Given) : Flag → Except Stop Given
  | .help => .error (.help level)
  | .version => .error (.version level)
  | f => if f ∈ g.flags then .error .misuse else .ok { g with flags := f :: g.flags }

/-- Adds a parameter.  It may be given once, with a value that it accepts. -/
def addParameter (g : Given) (p : Parameter) (value : Text) : Except Stop Given :=
  if p.accepts value ∧ (g.parameters.lookup p).isNone then
    .ok { g with parameters := (p, value) :: g.parameters }
  else .error .misuse

/-- Adds an operand, if the level takes one more and accepts the text for it. -/
def addOperand (level : Level) (g : Given) (t : Text) : Except Stop Given :=
  match level.operands[g.operands.length]? with
  | some operand =>
    if operand.accepts t then .ok { g with operands := g.operands ++ [t] } else .error .misuse
  | none => .error .misuse

/-- Adds the operands after the mark that ends all flags and parameters. -/
def addOperands (level : Level) (g : Given) (ts : List Text) : Except Stop Given :=
  ts.foldlM (addOperand level) g

end Given

/-- An argument, or the part of one, taken in: the level goes on with it, or its
    value is still to come. -/
inductive Taken where
  | done (g : Given)
  | awaiting (g : Given) (p : Parameter)
  deriving DecidableEq, Repr

namespace Level

/-- Takes an argument with two dashes, without these.  A value may follow after
    an equals sign, or as the next argument. -/
def takeLong (level : Level) (g : Given) (t : Text) : Except Stop Taken :=
  let name := t.takeWhile (· != '=')
  let value? := (t.dropWhile (· != '=')).tail?
  match level.flags.find? (·.long == name), level.parameters.find? (·.long == name), value? with
  | some f, _, none => (g.addFlag level f).map .done
  | _, some p, some value => (g.addParameter p value).map .done
  | _, some p, none => .ok (.awaiting g p)
  | _, _, _ => .error .misuse

/-- Takes letters with one dash before them, without it.  The rest of the
    argument, perhaps after an equals sign, is the value of a parameter. -/
def takeLetters (level : Level) (g : Given) : Text → Except Stop Taken
  | [] => .ok (.done g)
  | c :: t =>
    match level.flags.find? (·.short? == some c), level.parameters.find? (·.short? == some c) with
    | some f, _ =>
      match g.addFlag level f with
      | .ok g => level.takeLetters g t
      | .error stop => .error stop
    | none, some p =>
      match t with
      | [] => .ok (.awaiting g p)
      | '=' :: value => (g.addParameter p value).map .done
      | value => (g.addParameter p value).map .done
    | none, none => .error .misuse

/-- Takes the arguments of a level, up to the name of a command if the level has
    commands; `awaited` is the parameter whose value comes next. -/
def read (level : Level) (g : Given) (awaited : Option Parameter) :
    List Text → Except Stop (Given × Option (Verb × List Text))
  | [] => if awaited.isNone then .ok (g, none) else .error .misuse
  | arg :: args =>
    let go (taken : Taken) : Except Stop (Given × Option (Verb × List Text)) :=
      match taken with
      | .done g => level.read g none args
      | .awaiting g p => level.read g (some p) args
    match awaited, arg with
    | some _, '-' :: _ :: _ => .error .misuse
    | some p, value => do go (.done (← g.addParameter p value))
    | none, ['-', '-'] => do return (← g.addOperands level args, none)
    | none, '-' :: '-' :: long => do go (← level.takeLong g long)
    | none, '-' :: c :: letters => do go (← level.takeLetters g (c :: letters))
    | none, t =>
      match level.verb? t with
      | some verb => .ok (g, some (verb, args))
      | none => do go (.done (← g.addOperand level t))

end Level

/-! ## Commands -/

/-- What to do. -/
inductive Command where
  | validate (query : Text)
  | blocks (query : Text)
  | compile (query : Text)
  | render (query : Text)
  /-- A page of the records in the file `input`, from `cursor` on. -/
  | scan (query input : Text) (limit : Option Nat) (cursor : Nat) (all : Bool)
  | showSettings
  | createSettings (force : Bool)
  | changeSetting (key value : Text)
  | settingsPath
  /-- The script by which a shell completes command lines. -/
  | completions (shell : Shell)
  deriving DecidableEq, Repr

/-- How to answer. -/
structure Manner where
  verbose : Bool
  quiet : Bool
  json : Bool
  noColor : Bool
  deriving DecidableEq, Repr

/-- The manner that the flags of all levels ask for. -/
def Manner.ofFlags (flags : List Flag) : Manner :=
  ⟨.verbose ∈ flags, .quiet ∈ flags, .json ∈ flags, .noColor ∈ flags⟩

namespace Given

/-- Whether no two arguments of the level exclude each other. -/
def isConsistent (g : Given) : Bool :=
  !(.verbose ∈ g.flags && .quiet ∈ g.flags) &&
    !(.all ∈ g.flags && (g.parameters.lookup .limit).isSome)

/-- The value of a parameter that is a number. -/
def number? (g : Given) (p : Parameter) : Option Nat :=
  (g.parameters.lookup p).bind Text.signedNumeral?

/-- The command of a verb with the arguments given after it. -/
def command (g : Given) (verb : Verb) : Except Stop Command :=
  match verb, g.operands with
  | .validate, [query] => .ok (.validate query)
  | .blocks, [query] => .ok (.blocks query)
  | .compile, [query] => .ok (.compile query)
  | .render, [query] => .ok (.render query)
  | .scan, [query] =>
    match g.parameters.lookup .input with
    | some input =>
      .ok (.scan query input (g.number? .limit) ((g.number? .cursor).getD 0) (.all ∈ g.flags))
    | none => .error .misuse
  | .config, [] | .showSettings, [] => .ok .showSettings
  | .createSettings, [] => .ok (.createSettings (.force ∈ g.flags))
  | .changeSetting, [key, value] => .ok (.changeSetting key value)
  | .settingsPath, [] => .ok .settingsPath
  | .completions, [name] =>
    match Shell.ofName? name with
    | some shell => .ok (.completions shell)
    | none => .error .misuse
  | _, _ => .error .misuse

end Given

namespace Command

/-- Help on the level that the given verbs lead to. -/
def helpOn (level : Level) : List Text → Stop
  | [] => .help level
  | name :: names =>
    match level.verb? name with
    | some verb => helpOn (level.after verb) names
    | none => .misuse

/-- The flags and the command of the arguments on the level after a verb. -/
def ofVerb (level : Level) (verb : Verb) (args : List Text) :
    Except Stop (List Flag × Command) := do
  let (g, next) ← level.read ⟨[], [], []⟩ none args
  let (flags, command) ← match next with
    | none => do pure ([], ← g.command verb)
    | some (.help, names) => throw (helpOn level names)
    | some (inner, args) => do
      let (h, _) ← (level.after inner).read ⟨[], [], []⟩ none args
      if !h.isConsistent then throw .misuse
      pure (h.flags, ← h.command inner)
  if !g.isConsistent then throw .misuse
  return (g.flags ++ flags, command)

/-- What a command line asks for, and in which manner. -/
def ofArguments (args : List Text) : Except Stop (Manner × Command) := do
  let (g, next) ← Level.first.read ⟨[], [], []⟩ none args
  let (flags, command) ← match next with
    | none => throw .misuse
    | some (.help, names) => throw (helpOn Level.first names)
    | some (verb, args) => ofVerb (Level.first.after verb) verb args
  if !g.isConsistent then throw .misuse
  return (.ofFlags (g.flags ++ flags), command)

end Command

end RecordFilter
