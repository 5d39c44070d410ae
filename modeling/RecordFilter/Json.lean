/-
  Json — JSON values and their texts.

  An object keeps its members in the order in which they are written.  Records
  hold each key once, in the order of code points (`Json.record`); answers whose
  members have an order of their own are built with `Json.object`.

  * `Json.quote`: a string in quotes, with the fewest escapes;
  * `Json.compact`, `Json.pretty`: the texts without and with line breaks;
  * `Json.field?`: the value of a key.
-/
import RecordFilter.Text
import RecordFilter.Binary64.Shortest

namespace RecordFilter

namespace Json

/-- A JSON number: an integer, or a finite floating-point number. -/
inductive Number where
  | integer (value : Int)
  | real (negative : Bool) (magnitude : Binary64)
  deriving DecidableEq, Repr

/-- The text of a number. -/
def Number.text : Number → Text
  | integer i => Text.ofInt i
  | real negative x => if negative then '-' :: x.text else x.text

end Json

/-- A JSON value. -/
inductive Json where
  | null
  | bool (b : Bool)
  | number (n : Json.Number)
  | string (s : Text)
  | array (items : List Json)
  | object (members : List (Text × Json))

namespace Json

/-! ## Building and looking up -/

/-- The number of a natural. -/
def ofNat (n : Nat) : Json := number (.integer n)

/-- Puts a member into its place among members ordered by key.  A member of the
    same key gives way to it. -/
def insert (key : Text) (value : Json) : List (Text × Json) → List (Text × Json)
  | [] => [(key, value)]
  | (k, v) :: rest =>
    if key = k then (key, value) :: rest
    else if key.precedes k then (key, value) :: (k, v) :: rest
    else (k, v) :: insert key value rest

/-- The object with the given members in the order of their keys.  Of two
    members of one key the last counts. -/
def record (members : List (Text × Json)) : Json :=
  object (members.foldl (fun ms m => insert m.1 m.2 ms) [])

/-- The value of a key of an object. -/
def field? (key : Text) : Json → Option Json
  | object members => members.lookup key
  | _ => none

/-- The truth value, if the value is one. -/
def bool? : Json → Option Bool
  | bool b => some b
  | _ => none

/-- The text, if the value is a string. -/
def string? : Json → Option Text
  | string s => some s
  | _ => none

/-! ## Strings -/

/-- A character of a quoted string: quote, backslash and control characters are
    escaped, by a letter where there is one. -/
def escape (c : Char) : Text :=
  match c with
  | '"' => "\\\"".toList
  | '\\' => "\\\\".toList
  | '\x08' => "\\b".toList
  | '\x0c' => "\\f".toList
  | '\n' => "\\n".toList
  | '\r' => "\\r".toList
  | '\t' => "\\t".toList
  | c =>
    if c.toNat < 0x20 then
      "\\u00".toList ++ [Nat.digitChar (c.toNat / 16), Nat.digitChar (c.toNat % 16)]
    else [c]

/-- A string in quotes. -/
def quote (s : Text) : Text := '"' :: s.flatMap escape ++ ['"']

/-! ## The compact text -/

mutual

/-- The text without blanks, before `rest`. -/
def writeCompact : Json → Text → Text
  | null, rest => "null".toList ++ rest
  | bool true, rest => "true".toList ++ rest
  | bool false, rest => "false".toList ++ rest
  | number n, rest => n.text ++ rest
  | string s, rest => quote s ++ rest
  | array [], rest => '[' :: ']' :: rest
  | array (v :: vs), rest => '[' :: v.writeCompact (writeCompactItems vs (']' :: rest))
  | object [], rest => '\x7b' :: '\x7d' :: rest
  | object ((k, v) :: ms), rest =>
    '\x7b' :: quote k ++ ':' :: v.writeCompact (writeCompactMembers ms ('\x7d' :: rest))

/-- The further items of an array, before `rest`. -/
def writeCompactItems : List Json → Text → Text
  | [], rest => rest
  | v :: vs, rest => ',' :: v.writeCompact (writeCompactItems vs rest)

/-- The further members of an object, before `rest`. -/
def writeCompactMembers : List (Text × Json) → Text → Text
  | [], rest => rest
  | (k, v) :: ms, rest =>
    ',' :: quote k ++ ':' :: v.writeCompact (writeCompactMembers ms rest)

end

/-- The text without blanks. -/
def compact (v : Json) : Text := v.writeCompact []

/-! ## The indented text -/

/-- A new line at the given depth of indentation, two blanks a level. -/
def newline (depth : Nat) (rest : Text) : Text := '\n' :: Text.blanks (2 * depth) ++ rest

mutual

/-- The text with every item and member on a line of its own, before `rest`;
    `depth` is the level at which the value stands. -/
def writePretty (depth : Nat) : Json → Text → Text
  | array (v :: vs), rest =>
    '[' :: newline (depth + 1) (v.writePretty (depth + 1)
      (writePrettyItems depth vs (newline depth (']' :: rest))))
  | object ((k, v) :: ms), rest =>
    '\x7b' :: newline (depth + 1) (quote k ++ ':' :: ' ' :: v.writePretty (depth + 1)
      (writePrettyMembers depth ms (newline depth ('\x7d' :: rest))))
  | v, rest => v.writeCompact rest

/-- The further items of an array, before `rest`. -/
def writePrettyItems (depth : Nat) : List Json → Text → Text
  | [], rest => rest
  | v :: vs, rest =>
    ',' :: newline (depth + 1) (v.writePretty (depth + 1) (writePrettyItems depth vs rest))

/-- The further members of an object, before `rest`. -/
def writePrettyMembers (depth : Nat) : List (Text × Json) → Text → Text
  | [], rest => rest
  | (k, v) :: ms, rest =>
    ',' :: newline (depth + 1) (quote k ++ ':' :: ' ' :: v.writePretty (depth + 1)
      (writePrettyMembers depth ms rest))

end

/-- The indented text. -/
def pretty (v : Json) : Text := v.writePretty 0 []

/-! ## Kinds -/

/-- What kind of value it is, in words. -/
def kind : Json → Text
  | null => "null".toList
  | bool _ => "a boolean".toList
  | number _ => "a number".toList
  | string _ => "a string".toList
  | array _ => "an array".toList
  | object _ => "an object".toList

end Json

end RecordFilter
