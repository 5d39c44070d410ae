/-
  Query.Comparison — reading a single comparison.

  A comparison is an attribute name, an operator before or after it, and quoted
  values.  The text is cut at its quotes; the first run of lower-case letters
  and underscores outside quotes is the name, and what is left unquoted is the
  operator, which has to stand in one piece before the first value.

  * `values?`: the text cut at its quotes;
  * `Parts.of?`: name, stray text and values;
  * `readComparison`: the comparison, or the fault.
-/
import RecordFilter.Predicate
import RecordFilter.Query.Error
import RecordFilter.Query.Hint

namespace RecordFilter

namespace Query

/-! ## Quotes -/

/-- The pieces between double quotes, unquoted and quoted ones in turn, as the
    text before the first value, and each value with the unquoted text after it;
    none if the last value is left open. -/
def values? : List Text → Option (Text × List (Text × Text))
  | [] => none
  | [stray] => some (stray, [])
  | stray :: value :: ps => (values? ps).map fun (after, vs) => (stray, (value, after) :: vs)

/-! ## Names -/

/-- Whether `c` may occur in an attribute name. -/
def isNameChar (c : Char) : Bool := c.isLower || c == '_'

/-- The first name in an unquoted text, with the text before and after it. -/
def splitName? (t : Text) : Option (Text × Text × Text) :=
  match t.dropWhile (!isNameChar ·) with
  | [] => none
  | rest@(_ :: _) =>
    some (t.takeWhile (!isNameChar ·), rest.takeWhile isNameChar, rest.dropWhile isNameChar)

/-- The first name in a list of unquoted texts, with all other text in order. -/
def takeName : List Text → Option Text × Text
  | [] => (none, [])
  | t :: ts =>
    match splitName? t with
    | some (before, name, after) => (some name, before ++ after ++ ts.flatten)
    | none => let (name, others) := takeName ts; (name, t ++ others)

/-! ## Parts -/

/-- A comparison text taken apart. -/
structure Parts where
  name : Text
  /-- The unquoted text before the name and before the first value. -/
  before : Text
  /-- The unquoted text between the name and the first value. -/
  between : Text
  /-- The unquoted text after the first value, the name left out. -/
  trailing : Text
  values : List Text
  deriving DecidableEq, Repr

/-- The parts of a text whose first unquoted piece is `stray`; none if it holds
    no name. -/
def Parts.of? (stray : Text) (tail : List (Text × Text)) : Option Parts :=
  let values := tail.map (·.1)
  match splitName? stray with
  | some (before, name, after) => some ⟨name, before, after, (tail.map (·.2)).flatten, values⟩
  | none =>
    match takeName (tail.map (·.2)) with
    | (some name, trailing) => some ⟨name, stray, [], trailing, values⟩
    | (none, _) => none

/-- All unquoted text but the name, in order. -/
def Parts.token (p : Parts) : Text := p.before ++ p.between ++ p.trailing

/-- The operator: the token, if it stands in one piece before the first value. -/
def Parts.operator? (p : Parts) : Option Operator :=
  if p.trailing = [] ∧ (p.before = [] ∨ p.between = []) then Operator.ofToken? p.token else none

/-- Reads a comparison.  Of several faults the first of open quote, missing
    name, unknown operator and wrong operand count is reported. -/
def readComparison (t : Text) : Except Fault Comparison :=
  match values? (t.pieces '"') with
  | none => .error .openQuote
  | some (stray, tail) =>
    match Parts.of? stray tail with
    | none => .error .missingName
    | some p =>
      match p.operator? with
      | none => .error (.unknownOperator p.token (hint p.token))
      | some op =>
        match Comparison.of? p.name op p.values with
        | none => .error (.wrongOperandCount op p.values.length)
        | some c => .ok c

end Query

end RecordFilter
