/-
  Command.Run — running a command line.

  A run is a function of the arguments, the host, the standard input and the files
  there are.

  * `Invocation`, `Outcome`: what goes in and what comes out;
  * `Command.execute`: a command in its context;
  * `Invocation.run`: a whole run.
-/
import RecordFilter.Command.Help
import RecordFilter.Command.Query
import RecordFilter.Command.Settings

namespace RecordFilter

/-- What a run starts from. -/
structure Invocation where
  arguments : List Text
  host : Host
  standardInput : Contents
  files : Files

/-- What a run comes to. -/
structure Outcome where
  /-- The exit status, zero for success. -/
  status : Nat
  output : Text
  errors : Text
  files : Files

namespace Command

/-- Whether a command follows the settings.  The commands on settings do not, so
    that broken ones can still be looked at and replaced. -/
def followsSettings : Command → Bool
  | showSettings | createSettings _ | changeSetting _ _ | settingsPath | completions _ => false
  | _ => true

/-- The context of a command. -/
def context (command : Command) (manner : Manner) (i : Invocation) : Except Failure Context := do
  let settings ←
    if command.followsSettings then (Settings.load i.host i.files).mapError .settings
    else pure Settings.unset
  return .of manner settings i.host

/-- Does what a command says. -/
def execute (command : Command) (context : Context) (host : Host) (standardInput : Contents) :
    Procedure Unit :=
  match command with
  | validate query => validateQuery context query
  | blocks query => showBlocks context query
  | compile query => showPredicate context query
  | render query => showExpression context query
  | scan query input limit cursor all =>
    scanRecords context standardInput query input limit cursor all
  | showSettings => reportSettings context host
  | createSettings force => createFile context host force
  | changeSetting key value => saveSetting context host key value
  | settingsPath => reportPath context host
  | completions shell => Procedure.write (host.script shell)

/-- Whether a command reads the standard input. -/
def readsStandardInput : Command → Bool
  | scan _ input _ _ _ => Path.isStandardInput input
  | _ => false

end Command

namespace Invocation

/-- The outcome of a failure.  What was done before it stays. -/
def fail (e : Effects) (asJson : Bool) (palette : Palette) (f : Failure) : Outcome :=
  ⟨f.status, e.output, e.errors ++ f.report asJson palette, e.files⟩

/-- Runs a command line. -/
def run (i : Invocation) : Outcome :=
  match Command.ofArguments i.arguments with
  | .error .misuse => ⟨2, [], i.host.misuse i.arguments, i.files⟩
  | .error (.help level) => ⟨0, level.helpText, [], i.files⟩
  | .error (.version level) => ⟨0, level.versionText, [], i.files⟩
  | .ok (manner, command) =>
    match command.context manner i with
    | .error f => fail (.start i.files) manner.json .plain f
    | .ok context =>
      match command.execute context i.host i.standardInput (.start i.files) with
      | .ok () e => ⟨0, e.output, e.errors, e.files⟩
      | .error f e => fail e context.json context.palette f

end Invocation

end RecordFilter
