/-
  Command.Context — how a command answers.

  Flags go before settings, and a non-empty `NO_COLOR` turns colors off in any
  case.

  * `Context.of`: from flags, settings and host;
  * `Context.answer`: an answer as JSON, as a report, or not at all.
-/
import RecordFilter.Command.Arguments
import RecordFilter.Settings.Store
import RecordFilter.Text.Style

namespace RecordFilter

/-- How a command answers. -/
structure Context where
  json : Bool
  palette : Palette
  /-- Whether reports are left out. -/
  quiet : Bool
  /-- Whether there are remarks besides the report. -/
  verbose : Bool
  /-- How many matches a page holds if nothing else is asked for. -/
  pageSize : Option Nat
  deriving DecidableEq, Repr

namespace Context

/-- Whether the host turns colors off. -/
def refusesColor (host : Host) : Bool :=
  match host.environment.lookup "NO_COLOR".toList with
  | some value => value != []
  | none => false

/-- The context of flags, settings and host. -/
def of (manner : Manner) (settings : Settings) (host : Host) : Context where
  json := manner.json || settings.json.getD false
  palette := .ofBool (!manner.noColor && !refusesColor host && settings.color.getD true)
  quiet := manner.quiet
  verbose := manner.verbose
  pageSize := settings.pageSize

/-- An answer: its JSON form, or else a report unless that is left out. -/
def answer (context : Context) (json : Json) (report : Text) : Text :=
  if context.json then Text.line json.pretty
  else if context.quiet then []
  else report

end Context

end RecordFilter
