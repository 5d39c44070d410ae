/-
  Operator — the comparisons that a query can make.

  * `Operator.token`: how an operator is spelled in a query, and
    `Operator.ofToken?`, its exact inverse;
  * `Operator.arity`: how many quoted values it takes;
  * `Operator.all`: every operator, in the order in which hints prefer them.
-/
import RecordFilter.Text

namespace RecordFilter

/-- A comparison of one attribute with the quoted values of a query. -/
inductive Operator where
  | equal
  | notEqual
  | atMost
  | atLeast
  | before
  | after
  /-- The attribute lies between two values, both included. -/
  | between
  | begins
  /-- The attribute contains the value, as a part of a text or an element of a list. -/
  | contains
  | isFalse
  | isTrue
  deriving DecidableEq, Repr

namespace Operator

/-- Every operator.  Of two equally close ones a hint names the earlier. -/
def all : List Operator :=
  [equal, notEqual, atMost, atLeast, before, after, between, begins, contains, isFalse, isTrue]

/-- The spelling of an operator in a query. -/
def token : Operator → Text
  | equal => "==".toList
  | notEqual => "!=".toList
  | atMost => "<=".toList
  | atLeast => ">=".toList
  | before => "<<".toList
  | after => ">>".toList
  | between => "BETWEEN".toList
  | begins => "BEGINS".toList
  | contains => "CONTAINS".toList
  | isFalse => "~".toList
  | isTrue => "~~".toList

/-- The operator with the given spelling, if there is one. -/
def ofToken? (t : Text) : Option Operator := all.find? (·.token == t)

/-- The number of quoted values that an operator takes. -/
def arity : Operator → Nat
  | between => 2
  | isFalse | isTrue => 0
  | _ => 1

/-- The name of an operator in the JSON form of a predicate. -/
def name : Operator → Text
  | equal => "eq".toList
  | notEqual => "ne".toList
  | atMost => "lte".toList
  | atLeast => "gte".toList
  | before => "lt".toList
  | after => "gt".toList
  | between => "between".toList
  | begins => "begins_with".toList
  | contains => "contains".toList
  | isFalse => "is_false".toList
  | isTrue => "is_true".toList

theorem mem_all (op : Operator) : op ∈ all := by cases op <;> decide

theorem ofToken?_token (op : Operator) : ofToken? op.token = some op := by
  cases op <;> decide

theorem token_of_ofToken? {t : Text} {op : Operator} (h : ofToken? t = some op) :
    op.token = t := by
  simpa using List.find?_some h

/-- A text is the spelling of at most one operator. -/
theorem ofToken?_eq_some_iff {t : Text} {op : Operator} :
    ofToken? t = some op ↔ op.token = t :=
  ⟨token_of_ofToken?, fun h => h ▸ ofToken?_token op⟩

end Operator

end RecordFilter
