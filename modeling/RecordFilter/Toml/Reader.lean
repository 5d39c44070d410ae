/-
  Toml.Reader — reading a settings file.

  A file is read line by line: headers, keys with values, and lines that hold
  nothing but a comment.  Anything malformed, and any table or key that is given
  twice, makes the whole file unreadable.

  * `Toml.readValue`: a value nested at most `depth` levels deep;
  * `Toml.readLine`: one line, or several if its value spans them;
  * `Toml.read`: the table of a whole file.
-/
import RecordFilter.Toml.Number
import RecordFilter.Toml.Moment

namespace RecordFilter

namespace Toml

/-! ## Values -/

/-- Drops blanks, line breaks and comments; `comment` tells whether the text
    starts inside one. -/
def skipLines (comment : Bool) : Text → Text
  | [] => []
  | c :: t =>
    if c = '\n' then skipLines false t
    else if comment then (if isPlain c then skipLines true t else c :: t)
    else if c = '#' then skipLines true t
    else if isBlank c then skipLines false t
    else c :: t

/-- The items of an array up to its closing bracket. -/
def readItems (value : Text → Option (Value × Text)) (t : Text) :
    Option (List Value × Text) :=
  match skipLines false t with
  | ']' :: r => some ([], r)
  | t' =>
    match value t' with
    | none => none
    | some (v, r) =>
      match skipLines false r with
      | ']' :: r => some ([v], r)
      | ',' :: r =>
        if r.length < t.length then (readItems value r).map fun (vs, r) => (v :: vs, r) else none
      | _ => none
termination_by t.length

/-- A key with its value. -/
def readEntry (value : Text → Option (Value × Text)) (t : Text) :
    Option ((List Text × Value) × Text) :=
  (readKey t).bind fun (key, r) =>
    match r with
    | '=' :: r => (value (skipBlanks r)).map fun (v, r) => ((key, v), r)
    | _ => none

/-- One or more entries up to the closing brace. -/
def readEntries (value : Text → Option (Value × Text)) (t : Text) :
    Option (List (List Text × Value) × Text) :=
  match readEntry value t with
  | none => none
  | some (e, r) =>
    match skipBlanks r with
    | '\x7d' :: r => some ([e], r)
    | ',' :: r =>
      if r.length < t.length then (readEntries value r).map fun (es, r) => (e :: es, r) else none
    | _ => none
termination_by t.length

/-- The table of entries, if no key is given twice. -/
def tableOf (entries : List (List Text × Value)) : Option Table :=
  entries.foldlM (fun table (key, value) => assign value key table) []

/-- A value whose arrays and tables in braces are nested at most `depth` levels
    deep. -/
def readValue (depth : Nat) (t : Text) : Option (Value × Text) :=
  match t with
  | '[' :: t =>
    match depth with
    | 0 => none
    | depth + 1 => (readItems (readValue depth) t).map fun (vs, r) => (.array vs, r)
  | '\x7b' :: t =>
    match depth, skipBlanks t with
    | 0, _ => none
    | _ + 1, '\x7d' :: r => some (.inline [], r)
    | depth + 1, _ =>
      (readEntries (readValue depth) t).bind fun (es, r) => (tableOf es).map (.inline ·, r)
  | 't' :: 'r' :: 'u' :: 'e' :: r => some (.boolean true, r)
  | 'f' :: 'a' :: 'l' :: 's' :: 'e' :: r => some (.boolean false, r)
  | t =>
    match readString t with
    | some (s, r) => some (.string s, r)
    | none => (readMoment t).or (readNumber t)

/-- The number of levels that a value may be nested. -/
def maxDepth : Nat := 79

/-! ## Lines -/

/-- What a line says. -/
inductive Line where
  | blank
  | table (name : List Text)
  | element (name : List Text)
  | entry (key : List Text) (value : Value)

/-- The text after the end of a line, before which a comment may stand. -/
def endLine (t : Text) : Option Text :=
  let rest := match skipBlanks t with
    | '#' :: t => t.dropWhile isPlain
    | t => t
  match rest with
  | [] => some []
  | c :: t => if c = '\n' then some t else none

/-- A line with its end. -/
def readLine (t : Text) : Option (Line × Text) :=
  match skipBlanks t with
  | '[' :: '[' :: t =>
    match readKey t with
    | some (name, ']' :: ']' :: r) => (endLine r).map (.element name, ·)
    | _ => none
  | '[' :: t =>
    match readKey t with
    | some (name, ']' :: r) => (endLine r).map (.table name, ·)
    | _ => none
  | t =>
    match endLine t with
    | some r => some (.blank, r)
    | none =>
      (readEntry (readValue maxDepth) t).bind fun ((key, value), r) =>
        (endLine r).map (.entry key value, ·)

/-- All lines. -/
def readLines (t : Text) : Option (List Line) :=
  if t = [] then some [] else
  match readLine t with
  | none => none
  | some (l, r) => if r.length < t.length then (readLines r).map (l :: ·) else none
termination_by t.length

/-! ## Files -/

/-- A file that is read: its table, and the name in the last header. -/
structure Document where
  table : Table
  current : List Text

/-- Adds what a line says. -/
def Document.add (d : Document) : Line → Option Document
  | .blank => some d
  | .table name =>
    (within (openTable (name.getLastD [])) name.dropLast d.table).map (⟨·, name⟩)
  | .element name =>
    (within (openElement (name.getLastD [])) name.dropLast d.table).map (⟨·, name⟩)
  | .entry key value => (within (assign value key) d.current d.table).map (⟨·, d.current⟩)

/-- The text with every line break as a single character; none if a carriage
    return stands anywhere else. -/
def joinBreaks : Text → Option Text
  | [] => some []
  | '\r' :: '\n' :: t => (joinBreaks t).map ('\n' :: ·)
  | c :: t => if c = '\r' then none else (joinBreaks t).map (c :: ·)

/-- The text without a byte order mark. -/
def dropMark : Text → Text
  | '\ufeff' :: t => t
  | t => t

/-- The table of a whole file. -/
def read (t : Text) : Option Table := do
  let lines ← readLines (← joinBreaks (dropMark t))
  let d ← lines.foldlM Document.add ⟨[], []⟩
  return d.table

end Toml

end RecordFilter
