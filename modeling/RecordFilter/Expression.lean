/-
  Expression — a predicate as a filter expression of the record store.

  The store takes an expression in which `#n0`, `#n1`, … stand for attribute
  names and `:v0`, `:v1`, … for values.  Each distinct attribute gets one name,
  in order of first occurrence; each value gets its own, in reading order.
  Every join is parenthesized, so the store's own precedence does not matter.

  * `Predicate.names`, `Predicate.values`: what the placeholders stand for;
  * `Expression.ofPredicate`: the expression with its two tables;
  * `Expression.json`: the form in which the store takes it.
-/
import RecordFilter.Predicate
import RecordFilter.Json

namespace RecordFilter

/-- A value that an attribute is compared with. -/
inductive AttributeValue where
  | text (t : Text)
  | flag (b : Bool)
  deriving DecidableEq, Repr

/-- The typed form of a value: an object whose key tells the type. -/
def AttributeValue.json : AttributeValue → Json
  | text t => .object [("S".toList, .string t)]
  | flag b => .object [("BOOL".toList, .bool b)]

/-- The values of a comparison: its operands, or the truth value of a flag. -/
def Comparison.values (c : Comparison) : List AttributeValue :=
  match c.operator with
  | .isTrue => [.flag true]
  | .isFalse => [.flag false]
  | _ => c.operands.map .text

/-- The distinct attributes, in order of first occurrence. -/
def Predicate.names (p : Predicate) : List Text := (p.comparisons.map (·.name)).eraseDups

/-- The values of all comparisons, in reading order. -/
def Predicate.values (p : Predicate) : List AttributeValue := p.comparisons.flatMap (·.values)

namespace Expression

/-- The placeholder of the attribute with number `i`. -/
def nameRef (i : Nat) : Text := '#' :: 'n' :: Text.ofNat i

/-- The placeholder of the value with number `i`. -/
def valueRef (i : Nat) : Text := ':' :: 'v' :: Text.ofNat i

/-- The symbol of an operator that stands between attribute and value. -/
def symbol : Operator → Text
  | .notEqual => "<>".toList
  | .before => "<".toList
  | .atMost => "<=".toList
  | .after => ">".toList
  | .atLeast => ">=".toList
  | _ => "=".toList

/-- The condition of an operator on the attribute with placeholder `name` and
    the values with numbers from `k` on. -/
def condition (op : Operator) (name : Text) (k : Nat) : Text :=
  match op with
  | .between =>
    name ++ " BETWEEN ".toList ++ valueRef k ++ " AND ".toList ++ valueRef (k + 1)
  | .begins => "begins_with(".toList ++ name ++ ", ".toList ++ valueRef k ++ [')']
  | .contains => "contains(".toList ++ name ++ ", ".toList ++ valueRef k ++ [')']
  | op => name ++ ' ' :: symbol op ++ ' ' :: valueRef k

/-- The expression of a predicate, before `rest`.  `names` are the attributes by
    number, and `k` is the number of the first value. -/
def write (names : List Text) : Nat → Predicate → Text → Text
  | k, .leaf c, rest => condition c.operator (nameRef (names.idxOf c.name)) k ++ rest
  | k, .join l c r, rest =>
    '(' :: write names k l (") ".toList ++ c.keyword ++ " (".toList ++
      write names (k + l.values.length) r (')' :: rest))

end Expression

/-- A filter expression with what its placeholders stand for, by number. -/
structure Expression where
  text : Text
  names : List Text
  values : List AttributeValue
  deriving DecidableEq, Repr

namespace Expression

/-- The filter expression of a predicate. -/
def ofPredicate (p : Predicate) : Expression := ⟨write p.names 0 p [], p.names, p.values⟩

/-- The rows of the table of names. -/
def nameRows (e : Expression) : List (Text × Text) := e.names.mapIdx fun i a => (nameRef i, a)

/-- The rows of the table of values. -/
def valueRows (e : Expression) : List (Text × AttributeValue) :=
  e.values.mapIdx fun i v => (valueRef i, v)

/-- The form in which the store takes an expression.  The tables are ordered by
    placeholder text. -/
def json (e : Expression) : Json := .object [
  ("FilterExpression".toList, .string e.text),
  ("ExpressionAttributeNames".toList, .record (e.nameRows.map fun (p, a) => (p, .string a))),
  ("ExpressionAttributeValues".toList, .record (e.valueRows.map fun (p, v) => (p, v.json)))]

end Expression

end RecordFilter
