/-
  Proofs.Branches — reports with a branch of their own for colors.

  The reports are written again piece by piece.  Every row is put behind the rows before it,
  and wherever there is a color there are two ways to go on: with control sequences, one pair
  inside another, or without any.

  * `Style.nested`: a text with the control sequences of a style, and `paint_ofBool`: so a
    text is painted;
  * `Report.writtenCaret`, `Report.writtenBlocks`, `Report.writtenPage`,
    `Report.writtenRequest`: the reports piece by piece;
  * `Report.caret_ofBool`, `Report.blockTable_ofBool`, `Report.page_ofBool`,
    `Report.expressionTable_ofBool`: they are the same reports.
-/
import RecordFilter.Proofs.NumericOrder

namespace RecordFilter

/-! ## Painted texts -/

/-- A text between two control sequences. -/
def Style.between (on off : Nat) (t : Text) : Text := sequence on ++ t ++ sequence off

/-- A text with the control sequences of a style, one pair for each attribute. -/
def Style.nested : Style → Text → Text
  | cyan, t => between 36 39 t
  | dimmed, t => between 2 0 t
  | boldRed, t => between 1 0 (between 31 39 t)
  | boldYellow, t => between 1 0 (between 33 39 t)
  | boldGreen, t => between 1 0 (between 32 39 t)

/-- **A text is painted attribute by attribute**, or left as it is. -/
theorem paint_ofBool (colors : Bool) (style : Style) (t : Text) :
    (Palette.ofBool colors).paint style t = if colors then style.nested t else t := by
  cases colors with
  | false => rfl
  | true =>
    show style.start ++ t ++ style.stop = style.nested t
    cases style <;> simp only [Style.start, Style.stop, Style.nested, Style.between,
      List.append_assoc]

namespace Report

/-! ## Carets and blocks -/

/-- The query with a caret. -/
def writtenCaret (colors : Bool) (query : Text) (position : Nat) : Text :=
  let pad := Text.blanks (min position query.length)
  let mark := if colors then Style.boldRed.nested ['^'] else ['^']
  "  ".toList ++ query ++ "\n  ".toList ++ pad ++ mark ++ ['\n']

theorem caret_ofBool (colors : Bool) (query : Text) (position : Nat) :
    caret (.ofBool colors) query position = writtenCaret colors query position := by
  simp [caret, writtenCaret, paint_ofBool, Text.line, Text.blanks]

/-- Writes the rows of blocks, from the given number on, behind what there is. -/
def pushBlocks (colors : Bool) (output : Text) (index : Nat) : List Text → Text
  | [] => output
  | block :: blocks =>
    let count := (Query.Chain.ofText block).rest.length + 1
    let label := '$' :: Text.ofNat index
    let label := if colors then Style.cyan.nested label else label
    -- padded before painted, so that the sequences do not shift the columns
    let pad := Text.blanks (6 - ((Text.ofNat index).length + 1))
    pushBlocks colors
      (output ++ (label ++ pad ++ ' ' :: Text.padRight 8 (Text.ofNat count) ++ ' ' :: block ++
        ['\n'])) (index + 1) blocks

/-- The table of blocks. -/
def writtenBlocks (colors : Bool) (blocks : List Text) : Text :=
  let header := Text.padRight 6 "Block".toList ++ ' ' :: Text.padRight 8 "Operands".toList ++
    " Text".toList
  if colors then pushBlocks true (Style.dimmed.nested header ++ ['\n']) 0 blocks
  else pushBlocks false (header ++ ['\n']) 0 blocks

/-- The rows of blocks are put down one after the other. -/
theorem pushBlocks_eq (colors : Bool) (output : Text) (index : Nat) (blocks : List Text) :
    pushBlocks colors output index blocks = output ++
      (blocks.mapIdx fun i b => Text.line (blockRow (.ofBool colors) (index + i) b)).flatten := by
  induction blocks generalizing output index with
  | nil => simp [pushBlocks]
  | cons block blocks ih =>
    have hindex (i : Nat) : index + 1 + i = index + (i + 1) := by omega
    simp only [pushBlocks, ih, List.mapIdx_cons, List.flatten_cons, hindex, Nat.add_zero]
    simp [blockRow, paint_ofBool, Text.line, Query.reference, Query.referenceSign,
      Query.Chain.operands, blockColumns]

theorem blockTable_ofBool (colors : Bool) (blocks : List Text) :
    blockTable (.ofBool colors) blocks = writtenBlocks colors blocks := by
  cases colors <;>
    simp [blockTable, writtenBlocks, pushBlocks_eq, paint_ofBool, Text.line, blockColumns]

/-! ## Pages -/

/-- A page of records and its summary. -/
def writtenPage (colors : Bool) (page : Page) : Text :=
  let output := page.items.foldl (fun output r => output ++ r.compact ++ ['\n']) []
  let noun := if page.items.length = 1 then "match".toList else "matches".toList
  let summary := Text.ofNat page.items.length ++ ' ' :: noun ++ " (".toList ++
    Text.ofNat page.scanned ++ " records scanned)".toList
  let summary :=
    match page.next with
    | some cursor => summary ++ ("; next page: --cursor ".toList ++ Text.ofNat cursor)
    | none => summary
  if colors then output ++ (Style.dimmed.nested summary ++ ['\n'])
  else output ++ summary ++ ['\n']

theorem page_ofBool (colors : Bool) (page : Page) :
    Report.page (.ofBool colors) page = writtenPage colors page := by
  have hitems : page.items.foldl (fun output r => output ++ r.compact ++ ['\n']) [] =
      page.items.flatMap fun r => Text.line r.compact := by
    simp only [List.append_assoc, List.foldl_append_eq_append, List.nil_append, List.flatMap_def,
      Text.line]
  simp only [Report.page, writtenPage, summary, paint_ofBool, hitems, apply_ite String.toList]
  cases colors <;> cases page.next <;>
    simp only [if_true, Bool.false_eq_true, if_false, Text.line, List.append_assoc,
      List.cons_append, List.append_nil]

/-! ## Requests -/

/-- Writes the rows of a table behind what there is. -/
def pushRows (meaning : Json → Text) (output : Text) (rows : List (Text × Json)) : Text :=
  rows.foldl
    (fun output row =>
      output ++ ("  ".toList ++ Text.padRight 6 row.1 ++ ' ' :: meaning row.2 ++ ['\n']))
    output

/-- A request with its tables, whose rows are sorted by their numbers. -/
def writtenRequest (colors : Bool) (request : Json) : Text :=
  let heading (t : String) : Text := if colors then Style.boldGreen.nested t.toList else t.toList
  let string (v : Option Json) : Text := (v.bind Json.string?).getD []
  let output := heading "FilterExpression:" ++
    ' ' :: string (request.field? "FilterExpression".toList) ++ ['\n']
  let output := output ++ (heading "ExpressionAttributeNames:" ++ ['\n'])
  let output := pushRows (fun v => string (some v)) output
    (tableRows "ExpressionAttributeNames".toList request)
  let output := output ++ (heading "ExpressionAttributeValues:" ++ ['\n'])
  pushRows Json.compact output (tableRows "ExpressionAttributeValues".toList request)

theorem requestTable_ofBool (colors : Bool) (request : Json) :
    requestTable (.ofBool colors) request = writtenRequest colors request := by
  have hblanks : Text.blanks 2 = "  ".toList := rfl
  simp only [requestTable, writtenRequest, pushRows, placeholderRow, placeholderColumn,
    paint_ofBool, Text.line, hblanks, List.flatMap_def, List.append_assoc, List.cons_append,
    List.foldl_append_eq_append]

theorem expressionTable_ofBool (colors : Bool) {e : Expression}
    (hnames : e.names.length ≤ Text.maxIndex) (hvalues : e.values.length ≤ Text.maxIndex) :
    expressionTable (.ofBool colors) e = writtenRequest colors e.json := by
  rw [← requestTable_json (.ofBool colors) hnames hvalues, requestTable_ofBool]

end Report

end RecordFilter
