/-
  Command.Failure — why a command fails.

  * `Failure.message`: the wording, with the area that it comes from;
  * `Failure.code`, `Failure.status`: the code and exit status for other
    programs;
  * `Failure.report`: what is written about it.
-/
import RecordFilter.Query.Error
import RecordFilter.Report
import RecordFilter.Settings

namespace RecordFilter

/-- Why a command fails. -/
inductive Failure where
  | query (text : Text) (cause : Query.Error)
  | settings (cause : Settings.Error)
  | file (cause : FileError)
  | notJson
  /-- The records are no array but a value of the given kind. -/
  | notAnArray (kind : Text)
  deriving DecidableEq, Repr

/-- The code of a query error. -/
def Query.Error.code : Query.Error → Text
  | empty => "EMPTY_QUERY".toList
  | invalidCharacter _ _ => "INVALID_CHARACTER".toList
  | unbalancedParenthesis _ => "UNBALANCED_PARENTHESIS".toList
  | invalidComparison _ _ => "INVALID_COMPARISON".toList
  | tooManyComparisons _ => "TOO_MANY_OPERANDS".toList
  | unresolvedReference _ _ => "INTERNAL_ERROR".toList

namespace Failure

/-- The wording of a failure. -/
def message : Failure → Text
  | query _ e => "query error: ".toList ++ e.message
  | settings e => "configuration error: ".toList ++ e.message
  | file e => "I/O error: ".toList ++ e.message
  | notJson => "serialization error: not a JSON text".toList
  | notAnArray kind =>
    "serialization error: expected a JSON array of records, found ".toList ++ kind

/-- The code of a failure. -/
def code : Failure → Text
  | query _ e => e.code
  | settings _ => "CONFIG_ERROR".toList
  | file _ => "IO_ERROR".toList
  | notJson | notAnArray _ => "JSON_ERROR".toList

/-- The exit status of a failure.  A query error that is no fault of the query
    has one of its own. -/
def status : Failure → Nat
  | query _ e => if e.isUserError then 1 else 70
  | settings _ => 5
  | file _ => 3
  | notJson | notAnArray _ => 1

/-- The JSON form of a failure. -/
def json (f : Failure) : Json := .record [
  ("error".toList, .record [
    ("code".toList, .string f.code), ("message".toList, .string f.message)])]

/-- The query with a caret under the place that is to blame, if there is one. -/
def pointer (palette : Palette) : Failure → Text
  | query text e => (e.position?.map (Report.caret palette text)).getD []
  | _ => []

/-- What is written about a failure: its JSON form, or its wording below a
    pointer into the query. -/
def report (asJson : Bool) (palette : Palette) (f : Failure) : Text :=
  if asJson then Text.line f.json.pretty
  else f.pointer palette ++ Text.line ("Error: ".toList ++ f.message)

end Failure

end RecordFilter
