/-
  Toml.Quoted — strings and keys.

  A string stands in double quotes, with escapes, or in apostrophes, without
  any; tripled quotes may enclose several lines.  Control characters other than
  the tab are refused.  Line breaks are single characters here.

  * `Toml.readString`: a string of any of the four kinds;
  * `Toml.readKey`: a dotted key.
-/
import RecordFilter.Toml

namespace RecordFilter

namespace Toml

/-- A blank within a line. -/
def isBlank (c : Char) : Bool := c == ' ' || c == '\t'

/-- Drops the blanks before the next token of a line. -/
def skipBlanks (t : Text) : Text := t.dropWhile isBlank

/-- Whether a character may stand in a comment or, unescaped, in a string. -/
def isPlain (c : Char) : Bool := c == '\t' || 0x20 ≤ c.toNat && c != '\x7f'

/-- The quote of strings without escapes. -/
def apostrophe : Char := '\x27'

/-! ## Escapes -/

/-- The character of an escape of one letter. -/
def unescape? : Char → Option Char
  | '"' => some '"'
  | '\\' => some '\\'
  | 'b' => some '\x08'
  | 'f' => some '\x0c'
  | 'n' => some '\n'
  | 'r' => some '\r'
  | 't' => some '\t'
  | _ => none

/-- The character with the given hexadecimal number. -/
def scalar? (digits : Text) : Option Char :=
  (Text.hexValue? digits).bind fun n => if n.isValidChar then some (Char.ofNat n) else none

/-- The number of digits of an escape by number. -/
def escapeDigits : Char → Option Nat
  | 'u' => some 4
  | 'U' => some 8
  | _ => none

/-- The character of an escape after its backslash, and the number of characters
    that the escape takes. -/
def readEscape : Text → Option (Char × Nat)
  | [] => none
  | c :: t =>
    match escapeDigits c with
    | some n => if (t.take n).length = n then (scalar? (t.take n)).map (·, n + 1) else none
    | none => (unescape? c).map (·, 1)

/-! ## Strings on one line -/

/-- A string in double quotes, after the opening one.  The first `skip`
    characters are part of an escape read before. -/
def readBasic (skip : Nat) : Text → Option (Text × Text)
  | [] => none
  | c :: t =>
    match skip with
    | skip + 1 => readBasic skip t
    | 0 =>
      if c = '"' then some ([], t)
      else if c = '\\' then
        (readEscape t).bind fun (e, n) => (readBasic n t).map fun (s, r) => (e :: s, r)
      else if isPlain c then (readBasic 0 t).map fun (s, r) => (c :: s, r)
      else none

/-- A string in apostrophes, after the opening one. -/
def readLiteral (t : Text) : Option (Text × Text) :=
  let inside (c : Char) : Bool := isPlain c && c != apostrophe
  match t.dropWhile inside with
  | c :: r => if c = apostrophe then some (t.takeWhile inside, r) else none
  | [] => none

/-! ## Strings on several lines -/

/-- A line break after the opening quotes is not part of the string. -/
def dropLineBreak : Text → Text
  | '\n' :: t => t
  | t => t

/-- The closing quotes of a string on several lines: three, before which up to
    two may belong to the string. -/
def readClosing (quote : Char) (t : Text) : Option (Text × Text) :=
  let quotes := (t.takeWhile (· == quote)).length
  if quotes < 3 then none
  else some (List.replicate (min quotes 5 - 3) quote, t.drop (min quotes 5))

/-- A string in three double quotes, after the opening ones.  The first `skip`
    characters are part of an escape read before; a `folded` backslash at the end
    of a line also drops the blanks and line breaks after it. -/
def readLongBasic (skip : Nat) (folded : Bool) : Text → Option (Text × Text)
  | [] => none
  | c :: t =>
    match skip with
    | skip + 1 => readLongBasic skip folded t
    | 0 =>
      if folded && (isBlank c || c == '\n') then readLongBasic 0 true t
      else match readClosing '"' (c :: t) with
      | some r => some r
      | none =>
        if c = '\\' then
          if (skipBlanks t).head? = some '\n' then readLongBasic 0 true t
          else
            (readEscape t).bind fun (e, n) =>
              (readLongBasic n false t).map fun (s, r) => (e :: s, r)
        else if isPlain c || c == '\n' then
          (readLongBasic 0 false t).map fun (s, r) => (c :: s, r)
        else none

/-- A string in three apostrophes, after the opening ones. -/
def readLongLiteral : Text → Option (Text × Text)
  | [] => none
  | c :: t =>
    match readClosing apostrophe (c :: t) with
    | some r => some r
    | none =>
      if isPlain c || c == '\n' then (readLongLiteral t).map fun (s, r) => (c :: s, r) else none

/-- A string with its quotes. -/
def readString : Text → Option (Text × Text)
  | '"' :: '"' :: '"' :: t => readLongBasic 0 false (dropLineBreak t)
  | '"' :: t => readBasic 0 t
  | '\x27' :: '\x27' :: '\x27' :: t => readLongLiteral (dropLineBreak t)
  | '\x27' :: t => readLiteral t
  | _ => none

/-! ## Keys -/

/-- A character of a key without quotes. -/
def isKeyChar (c : Char) : Bool := c.isAlphanum || c == '_' || c == '-'

/-- One part of a key. -/
def readKeyPart : Text → Option (Text × Text)
  | '"' :: t => readBasic 0 t
  | '\x27' :: t => readLiteral t
  | t =>
    match t.takeWhile isKeyChar with
    | [] => none
    | key => some (key, t.dropWhile isKeyChar)

/-- The parts of a key, with points between them and blanks around them. -/
def readKeyParts (t : Text) : Option (List Text × Text) :=
  match readKeyPart (skipBlanks t) with
  | none => none
  | some (key, r) =>
    match skipBlanks r with
    | '.' :: r =>
      if r.length < t.length then (readKeyParts r).map fun (keys, r) => (key :: keys, r) else none
    | r => some ([key], r)
termination_by t.length

/-- The most parts that a key may have. -/
def maxKeyParts : Nat := 79

/-- A dotted key. -/
def readKey (t : Text) : Option (List Text × Text) :=
  (readKeyParts t).filter fun (keys, _) => keys.length ≤ maxKeyParts

end Toml

end RecordFilter
