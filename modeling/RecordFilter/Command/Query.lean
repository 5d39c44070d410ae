/-
  Command.Query — the commands on queries.

  * `Command.validate`, `Command.blocks`, `Command.compile`, `Command.render`:
    what a query is made of;
  * `Command.scan`: a page of the records that it selects.
-/
import RecordFilter.Command.Procedure
import RecordFilter.Command.Context
import RecordFilter.Json.Reader
import RecordFilter.Query.Compile
import RecordFilter.Report

namespace RecordFilter

/-- The JSON form of a block with its number. -/
def Query.blockJson (index : Nat) (block : Text) : Json :=
  let chain := Query.Chain.ofText block
  .record [
    ("index".toList, Json.ofNat index),
    ("text".toList, .string block),
    ("operands".toList, .array (chain.operands.map fun o => .string o.text)),
    ("combinators".toList, .array (chain.rest.map fun (c, _) => .string c.keyword))]

namespace Command

open Procedure

/-- Tells whether a query holds allowed characters only. -/
def validateQuery (context : Context) (query : Text) : Procedure Unit := do
  ofQuery query (Query.validate query)
  write (context.answer
    (.record [("query".toList, .string query), ("valid".toList, .bool true)])
    (Text.line "Query is valid.".toList))

/-- Shows the blocks of a query. -/
def showBlocks (context : Context) (query : Text) : Procedure Unit := do
  let blocks ← ofQuery query (Query.resolveBlocks query)
  write (context.answer
    (.record [("blocks".toList, .array (blocks.mapIdx Query.blockJson))])
    (Report.blockTable context.palette blocks))

/-- Shows the predicate of a query, and remarks on the number of comparisons. -/
def showPredicate (context : Context) (query : Text) : Procedure Unit := do
  let p ← ofQuery query (Query.compile query)
  write (context.answer p.json (Report.tree context.palette p))
  if context.verbose && !context.json && !context.quiet then
    remark (Text.line (Text.ofNat p.comparisons.length ++ " comparison(s)".toList))

/-- Shows the filter expression of a query. -/
def showExpression (context : Context) (query : Text) : Procedure Unit := do
  let p ← ofQuery query (Query.compile query)
  let e := Expression.ofPredicate p
  write (context.answer e.json (Report.expressionTable context.palette e))

/-- The records of a JSON text. -/
def recordsOf (t : Text) : Except Failure (List Json) :=
  match Json.read t with
  | none => .error .notJson
  | some (.array records) => .ok records
  | some v => .error (.notAnArray v.kind)

/-- The records of a file, or of the standard input. -/
def readRecords (files : Files) (standardInput : Contents) (path : Text) :
    Except Failure (List Json) := do
  let t ← Except.mapError Failure.file
    (if Path.isStandardInput path then standardInput.text? else files.read path)
  recordsOf t

/-- The limit of a page: none, the one asked for, the one set, or the default. -/
def pageLimit (context : Context) (limit : Option Nat) (all : Bool) : Option Nat :=
  if all then none else some ((limit.or context.pageSize).getD defaultPageSize)

/-- Shows a page of the records that a query selects. -/
def scanRecords (context : Context) (standardInput : Contents) (query input : Text)
    (limit : Option Nat) (cursor : Nat) (all : Bool) : Procedure Unit := do
  let p ← ofQuery query (Query.compile query)
  let records ← ofExcept (readRecords (← files) standardInput input)
  let page := Page.scan p records cursor (pageLimit context limit all)
  write (context.answer page.json (Report.page context.palette page))

end Command

end RecordFilter
