/-
  Report — what is shown of queries, predicates and pages.

  Every report is written with or without colors.

  * `Report.caret`: pointing at a place in a query;
  * `Report.blockTable`: the blocks of a query with their operand counts;
  * `Report.tree`: a predicate as an indented tree;
  * `Report.expressionTable`: a filter expression with its placeholders, in the
    order of their numbers;
  * `Report.page`: a page of records, one per line, and a summary.
-/
import RecordFilter.Expression
import RecordFilter.Query.Chain
import RecordFilter.Scan.Page
import RecordFilter.Text.Style

namespace RecordFilter

namespace Report

/-- The query on a line, and a caret under the character at `position`.  A
    position past the end stands for the end. -/
def caret (palette : Palette) (query : Text) (position : Nat) : Text :=
  Text.line (Text.blanks 2 ++ query) ++
    Text.line (Text.blanks 2 ++ Text.blanks (min position query.length) ++
      palette.paint .boldRed ['^'])

/-! ## Blocks -/

/-- The widths of the first two columns of the block table. -/
def blockColumns : Nat × Nat := (6, 8)

/-- A row of the block table.  The label is padded by its own width, not by that
    of the painted one. -/
def blockRow (palette : Palette) (index : Nat) (block : Text) : Text :=
  let label := Query.reference index
  let count := (Query.Chain.ofText block).operands.length
  palette.paint .cyan label ++ Text.blanks (blockColumns.1 - label.length) ++ ' ' ::
    Text.padRight blockColumns.2 (Text.ofNat count) ++ ' ' :: block

/-- The table of the blocks of a query. -/
def blockTable (palette : Palette) (blocks : List Text) : Text :=
  let header := Text.padRight blockColumns.1 "Block".toList ++ ' ' ::
    Text.padRight blockColumns.2 "Operands".toList ++ ' ' :: "Text".toList
  Text.line (palette.paint .dimmed header) ++
    (blocks.mapIdx fun i b => Text.line (blockRow palette i b)).flatten

/-! ## Predicates -/

/-- A comparison in words, its attribute painted. -/
def comparison (palette : Palette) (c : Comparison) : Text :=
  palette.paint .cyan c.name ++ ' ' :: c.condition

/-- The lines of a subtree behind a branch: `first` before the first line and
    `others` before all further ones. -/
def branch (first others : Text) : List Text → List Text
  | [] => []
  | l :: ls => (first ++ l) :: ls.map (others ++ ·)

/-- The lines of the tree of a predicate. -/
def treeLines (palette : Palette) : Predicate → List Text
  | .leaf c => [comparison palette c]
  | .join l c r =>
    palette.paint .boldYellow c.keyword ::
      branch "├── ".toList "│   ".toList (treeLines palette l) ++
      branch "└── ".toList "    ".toList (treeLines palette r)

/-- The tree of a predicate. -/
def tree (palette : Palette) (p : Predicate) : Text := (treeLines palette p).flatMap Text.line

/-! ## Filter expressions -/

/-- The width of the placeholder column. -/
def placeholderColumn : Nat := 6

/-- A row that tells what a placeholder stands for. -/
def placeholderRow (placeholder meaning : Text) : Text :=
  Text.line (Text.blanks 2 ++ Text.padRight placeholderColumn placeholder ++ ' ' :: meaning)

/-- A filter expression and what its placeholders stand for. -/
def expressionTable (palette : Palette) (e : Expression) : Text :=
  let heading (t : String) : Text := palette.paint .boldGreen t.toList
  Text.line (heading "FilterExpression:" ++ ' ' :: e.text) ++
    Text.line (heading "ExpressionAttributeNames:") ++
    e.nameRows.flatMap (fun (p, a) => placeholderRow p a) ++
    Text.line (heading "ExpressionAttributeValues:") ++
    e.valueRows.flatMap (fun (p, v) => placeholderRow p v.json.compact)

/-! ## Pages -/

/-- How much a page holds, and where the next one starts. -/
def summary (page : Page) : Text :=
  let count := page.items.length
  Text.ofNat count ++ ' ' :: (if count = 1 then "match" else "matches").toList ++
    " (".toList ++ Text.ofNat page.scanned ++ " records scanned)".toList ++
    match page.next with
    | some n => "; next page: --cursor ".toList ++ Text.ofNat n
    | none => []

/-- The records of a page, one per line, and the summary. -/
def page (palette : Palette) (page : Page) : Text :=
  page.items.flatMap (fun r => Text.line r.compact) ++
    Text.line (palette.paint .dimmed (summary page))

end Report

end RecordFilter
