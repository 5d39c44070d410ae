/-
  Json.Reader — reading JSON text.

  The grammar is strict: no comments, no trailing commas or text, no leading
  zeros, no control characters in strings, no lone surrogates.  Each function
  takes the text before it and gives a value with the text after it, or nothing.

  * `Json.readString`, `Json.readNumber`: the scalars;
  * `Json.readValue`: a value nested at most `depth` levels deep;
  * `Json.read`: a whole text.
-/
import RecordFilter.Json

namespace RecordFilter

namespace Json

/-- Drops the blanks before the next token. -/
def skipBlanks (t : Text) : Text :=
  t.dropWhile fun c => c == ' ' || c == '\n' || c == '\r' || c == '\t'

/-! ## Strings -/

/-- A character of a string as it is written, or one 16-bit unit of it. -/
inductive Unit16 where
  | char (c : Char)
  | unit (code : Nat)
  deriving DecidableEq, Repr

/-- The character of an escape of one letter. -/
def unescape? : Char → Option Char
  | '"' => some '"'
  | '\\' => some '\\'
  | '/' => some '/'
  | 'b' => some '\x08'
  | 'f' => some '\x0c'
  | 'n' => some '\n'
  | 'r' => some '\r'
  | 't' => some '\t'
  | _ => none

/-- The units of a string up to its closing quote. -/
def readUnits : Text → Option (List Unit16 × Text)
  | [] => none
  | '"' :: t => some ([], t)
  | '\\' :: 'u' :: a :: b :: c :: d :: t =>
    (Text.hexValue? [a, b, c, d]).bind fun n => (readUnits t).map fun (us, r) => (.unit n :: us, r)
  | '\\' :: c :: t =>
    (unescape? c).bind fun c => (readUnits t).map fun (us, r) => (.char c :: us, r)
  | c :: t =>
    if c.toNat < 0x20 then none else (readUnits t).map fun (us, r) => (.char c :: us, r)

/-- Whether a unit is the first half of a character beyond the 16-bit ones. -/
def isHighHalf (n : Nat) : Bool := 0xD800 ≤ n && n ≤ 0xDBFF

/-- Whether a unit is the second half of such a character. -/
def isLowHalf (n : Nat) : Bool := 0xDC00 ≤ n && n ≤ 0xDFFF

/-- The characters of units; halves have to come in pairs. -/
def joinUnits : List Unit16 → Option Text
  | [] => some []
  | .char c :: us => (joinUnits us).map (c :: ·)
  | .unit h :: us =>
    if isHighHalf h then
      match us with
      | .unit l :: us =>
        if isLowHalf l then
          (joinUnits us).map (Char.ofNat (0x10000 + (h - 0xD800) * 0x400 + (l - 0xDC00)) :: ·)
        else none
      | _ => none
    else if isLowHalf h then none
    else (joinUnits us).map (Char.ofNat h :: ·)

/-- A string after its opening quote. -/
def readString (t : Text) : Option (Text × Text) :=
  (readUnits t).bind fun (us, r) => (joinUnits us).map fun s => (s, r)

/-! ## Numbers -/

/-- The most that a significand may be: 64 bits. -/
def maxSignificand : Nat := 0xFFFFFFFFFFFFFFFF

/-- The most that the magnitude of a negative integer may be. -/
def maxNegative : Nat := 0x8000000000000000

/-- Appends digits to a significand as long as it stays in range, and returns
    it with the number of digits taken and those left. -/
def takeDigits (significand : Nat) : Text → Nat × Nat × Text
  | [] => (significand, 0, [])
  | c :: ds =>
    let next := 10 * significand + (c.toNat - '0'.toNat)
    if next ≤ maxSignificand then
      let (s, n, rest) := takeDigits next ds
      (s, n + 1, rest)
    else (significand, 0, c :: ds)

/-- The exponent after its mark: an optional sign and one or more digits. -/
def readExponent (t : Text) : Option (Int × Text) :=
  let (negative, t) := match t with
    | '+' :: t => (false, t)
    | '-' :: t => (true, t)
    | t => (false, t)
  match t.takeWhile Char.isDigit with
  | [] => none
  | ds => some (if negative then -(Text.value ds : Int) else Text.value ds,
      t.dropWhile Char.isDigit)

/-- A number without its sign.  Digits that do not fit into the significand are
    dropped; those before the point still count as places. -/
def readUnsigned (negative : Bool) (t : Text) : Option (Number × Text) :=
  let whole := t.takeWhile Char.isDigit
  let t := t.dropWhile Char.isDigit
  if whole = [] ∨ (whole.length > 1 ∧ whole.head? = some '0') then none else
  let (significand, _, dropped) := takeDigits 0 whole
  let fraction? : Option (Option Text × Text) := match t with
    | '.' :: t =>
      match t.takeWhile Char.isDigit with
      | [] => none
      | ds => some (some ds, t.dropWhile Char.isDigit)
    | t => some (none, t)
  fraction?.bind fun (fraction, t) =>
  let (significand, places, _) := takeDigits significand (fraction.getD [])
  let exponent? : Option (Option Int × Text) := match t with
    | c :: t => if c = 'e' ∨ c = 'E' then (readExponent t).map fun (e, t) => (some e, t)
      else some (none, c :: t)
    | [] => some (none, [])
  exponent?.bind fun (exponent, t) =>
  if fraction = none ∧ exponent = none ∧ dropped = [] ∧
      (negative → 0 < significand ∧ significand ≤ maxNegative) then
    some (.integer (if negative then -(significand : Int) else significand), t)
  else
    (Binary64.ofDecimal? significand (exponent.getD 0 + dropped.length - places)).map
      fun x => (.real negative x, t)

/-- A number: an integer if it is written as one and fits into 64 bits, else a
    floating-point number in range. -/
def readNumber : Text → Option (Number × Text)
  | '-' :: t => readUnsigned true t
  | t => readUnsigned false t

/-! ## Values -/

/-- One or more items separated by commas, up to the closing character. -/
def readItems {α : Type} (item : Text → Option (α × Text)) (closing : Char) (t : Text) :
    Option (List α × Text) :=
  match item t with
  | none => none
  | some (x, r) =>
    match skipBlanks r with
    | c :: r =>
      if c = closing then some ([x], r)
      else if c = ',' ∧ r.length < t.length then
        (readItems item closing r).map fun (xs, r) => (x :: xs, r)
      else none
    | [] => none
termination_by t.length

/-- A member of an object. -/
def readMember (value : Text → Option (Json × Text)) (t : Text) :
    Option ((Text × Json) × Text) :=
  match skipBlanks t with
  | '"' :: t =>
    (readString t).bind fun (key, t) =>
    match skipBlanks t with
    | ':' :: t => (value t).map fun (v, t) => ((key, v), t)
    | _ => none
  | _ => none

/-- A value whose arrays and objects are nested at most `depth` levels deep. -/
def readValue (depth : Nat) (t : Text) : Option (Json × Text) :=
  match skipBlanks t with
  | '[' :: t =>
    match depth, skipBlanks t with
    | 0, _ => none
    | _ + 1, ']' :: t => some (array [], t)
    | depth + 1, _ =>
      (readItems (readValue depth) ']' t).map fun (vs, t) => (array vs, t)
  | '\x7b' :: t =>
    match depth, skipBlanks t with
    | 0, _ => none
    | _ + 1, '\x7d' :: t => some (object [], t)
    | depth + 1, _ =>
      (readItems (readMember (readValue depth)) '\x7d' t).map fun (ms, t) => (record ms, t)
  | '"' :: t => (readString t).map fun (s, t) => (string s, t)
  | 'n' :: 'u' :: 'l' :: 'l' :: t => some (null, t)
  | 't' :: 'r' :: 'u' :: 'e' :: t => some (bool true, t)
  | 'f' :: 'a' :: 'l' :: 's' :: 'e' :: t => some (bool false, t)
  | t => (readNumber t).map fun (n, t) => (number n, t)

/-- The number of levels that a text may be nested. -/
def maxDepth : Nat := 127

/-- The value of a whole text nested at most `depth` levels deep. -/
def readNested (depth : Nat) (t : Text) : Option Json :=
  match readValue depth t with
  | some (v, rest) => if skipBlanks rest = [] then some v else none
  | none => none

/-- The value of a whole text. -/
def read (t : Text) : Option Json := readNested maxDepth t

end Json

end RecordFilter
