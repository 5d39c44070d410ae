/-
  Predicate — the compiled form of a query.

  A predicate is a comparison of one attribute or two predicates joined by AND
  or OR.  `Comparison.of?` builds a comparison only if the operator takes that
  many operands, and the named constructors (`Predicate.equal`, …) always give
  the right number.

  * `Predicate.comparisons`: the comparisons, left to right;
  * `Predicate.text`: the written form, every join in parentheses;
  * `Predicate.json`: the JSON form, a tagged object for each node.
-/
import RecordFilter.Json
import RecordFilter.Operator

namespace RecordFilter

/-- How two predicates are joined. -/
inductive Combinator where
  | and
  | or
  deriving DecidableEq, Repr

/-- The keyword of a combinator. -/
def Combinator.keyword : Combinator → Text
  | and => "AND".toList
  | or => "OR".toList

/-- A comparison of one attribute. -/
structure Comparison where
  name : Text
  operator : Operator
  /-- The quoted values, in the order in which they were written. -/
  operands : List Text
  deriving DecidableEq, Repr

/-- The comparison of the attribute `name` by `operator`, if the operator takes that
    many operands. -/
def Comparison.of? (name : Text) (operator : Operator) (operands : List Text) :
    Option Comparison :=
  if operands.length = operator.arity then some ⟨name, operator, operands⟩ else none

/-- A predicate on records. -/
inductive Predicate where
  | leaf (comparison : Comparison)
  | join (left : Predicate) (combinator : Combinator) (right : Predicate)
  deriving DecidableEq, Repr

namespace Predicate

/-! ## Building -/

/-- The join `left AND right`. -/
def and (left right : Predicate) : Predicate := join left .and right

/-- The join `left OR right`. -/
def or (left right : Predicate) : Predicate := join left .or right

/-- The comparison of the attribute `name` by `operator`, if the operator takes that
    many operands. -/
def of? (name : Text) (operator : Operator) (operands : List Text) : Option Predicate :=
  (Comparison.of? name operator operands).map leaf

/-- The attribute is `value`. -/
def equal (name value : Text) : Predicate := leaf ⟨name, .equal, [value]⟩

/-- The attribute is not `value`. -/
def notEqual (name value : Text) : Predicate := leaf ⟨name, .notEqual, [value]⟩

/-- The attribute sorts before `value` or is `value`. -/
def atMost (name value : Text) : Predicate := leaf ⟨name, .atMost, [value]⟩

/-- The attribute sorts after `value` or is `value`. -/
def atLeast (name value : Text) : Predicate := leaf ⟨name, .atLeast, [value]⟩

/-- The attribute sorts before `value`. -/
def before (name value : Text) : Predicate := leaf ⟨name, .before, [value]⟩

/-- The attribute sorts after `value`. -/
def after (name value : Text) : Predicate := leaf ⟨name, .after, [value]⟩

/-- The attribute lies between `low` and `high`, both included. -/
def between (name low high : Text) : Predicate := leaf ⟨name, .between, [low, high]⟩

/-- The attribute begins with `value`. -/
def begins (name value : Text) : Predicate := leaf ⟨name, .begins, [value]⟩

/-- The attribute contains `value`. -/
def contains (name value : Text) : Predicate := leaf ⟨name, .contains, [value]⟩

/-- The flag `name` is off. -/
def isFalse (name : Text) : Predicate := leaf ⟨name, .isFalse, []⟩

/-- The flag `name` is on. -/
def isTrue (name : Text) : Predicate := leaf ⟨name, .isTrue, []⟩

/-! ## Parts -/

/-- The comparison, if the predicate is one. -/
def comparison? : Predicate → Option Comparison
  | leaf c => some c
  | join _ _ _ => none

/-- The comparisons, left to right. -/
def comparisons : Predicate → List Comparison
  | leaf c => [c]
  | join l _ r => l.comparisons ++ r.comparisons

end Predicate

/-! ## The written form -/

/-- A value in double quotes.  Nothing is escaped. -/
def quoted (value : Text) : Text := '"' :: value ++ ['"']

/-- The operator and the operands of a comparison.  A flag check is written as
    an equality with `true` or `false`, the two bounds of `BETWEEN` with `AND`
    between them. -/
def Comparison.condition (c : Comparison) : Text :=
  match c.operator with
  | .isTrue => "== true".toList
  | .isFalse => "== false".toList
  | op => op.token ++ ' ' :: Text.join " AND ".toList (c.operands.map quoted)

/-- A comparison in words: attribute, operator, operands. -/
def Comparison.text (c : Comparison) : Text := c.name ++ ' ' :: c.condition

/-- The written form of a predicate, before `rest`. -/
def Predicate.write : Predicate → Text → Text
  | .leaf c, rest => c.text ++ rest
  | .join l c r, rest =>
    '(' :: l.write (' ' :: c.keyword ++ ' ' :: r.write (')' :: rest))

/-- The written form of a predicate: comparisons in words, every join in
    parentheses. -/
def Predicate.text (p : Predicate) : Text := p.write []

theorem Predicate.write_eq (p : Predicate) (rest : Text) : p.write rest = p.text ++ rest := by
  unfold Predicate.text
  induction p generalizing rest with
  | leaf c => simp [write]
  | join l c r ihl ihr => rw [write, ihl, ihr, write, ihl (_ ++ _), ihr [')']]; simp

/-- A join is written in parentheses around its two sides. -/
theorem Predicate.text_join (l r : Predicate) (c : Combinator) :
    (Predicate.join l c r).text =
      '(' :: l.text ++ ' ' :: c.keyword ++ ' ' :: r.text ++ [')'] := by
  rw [Predicate.text, write, write_eq, write_eq]; simp

/-! ## The JSON form -/

/-- The JSON form of a comparison, without its tag. -/
def Comparison.members (c : Comparison) : List (Text × Json) := [
  ("attribute".toList, .string c.name),
  ("operator".toList, .string c.operator.name),
  ("operands".toList, .array (c.operands.map .string))]

/-- The JSON form of a predicate.  A leaf has its attribute, operator and operands, a
    composite its two sides with the combinator between them. -/
def Predicate.json : Predicate → Json
  | .leaf c => .object (("kind".toList, .string "leaf".toList) :: c.members)
  | .join l c r => .object [
      ("kind".toList, .string "composite".toList),
      ("left".toList, l.json),
      ("combinator".toList, .string c.keyword),
      ("right".toList, r.json)]

end RecordFilter
