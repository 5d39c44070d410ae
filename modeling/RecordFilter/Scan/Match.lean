/-
  Scan.Match — which records a predicate selects.

  Records are arbitrary JSON values.  Texts are compared by code points; a
  missing attribute, or one that is no text, fails every comparison but `!=`.
  `CONTAINS` also looks for the value among the elements of a list, and flags
  are JSON truth values only.

  * `Comparison.selects`: the test of one comparison;
  * `Predicate.selects`: the test of a predicate, which keeps the right-hand
    sides still to be looked at in a list and skips those that do not matter;
  * `Predicate.holds`: the plain meaning, and `visit_eq`: looking at a predicate
    amounts to going on with its meaning.
-/
import RecordFilter.Predicate
import RecordFilter.Json

namespace RecordFilter

/-- Whether a comparison by `op` with the given operands holds of a text. -/
def Operator.compares (op : Operator) (operands : List Text) (t : Text) : Bool :=
  match op, operands with
  | .equal, [v] => t == v
  | .before, [v] => t.precedes v
  | .atMost, [v] => !v.precedes t
  | .after, [v] => v.precedes t
  | .atLeast, [v] => !t.precedes v
  | .begins, [v] => v.isPrefixOf t
  | .between, [low, high] => !t.precedes low && !high.precedes t
  | _, _ => false

/-- Whether a comparison selects a record. -/
def Comparison.selects (c : Comparison) (record : Json) : Bool :=
  let field := record.field? c.name
  match c.operator with
  | .isTrue => field.bind Json.bool? == some true
  | .isFalse => field.bind Json.bool? == some false
  | .notEqual => field.bind Json.string? != c.operands.head?
  | .contains =>
    let value := c.operands.headD []
    match field with
    | some (.string t) => Text.occursIn value t
    | some (.array vs) => vs.any (·.string? == some value)
    | _ => false
  | op =>
    match field.bind Json.string? with
    | some t => op.compares c.operands t
    | none => false

namespace Predicate

/-- The plain meaning of a predicate on a record. -/
def holds (record : Json) : Predicate → Bool
  | leaf c => c.selects record
  | join l .and r => l.holds record && r.holds record
  | join l .or r => l.holds record || r.holds record

/-- The number of nodes. -/
def size : Predicate → Nat
  | leaf _ => 1
  | join l _ r => l.size + r.size + 1

theorem size_pos (p : Predicate) : 0 < p.size := by cases p <;> simp [size]

/-- The right-hand sides still to be looked at, the innermost first, each with
    the combinator before it. -/
abbrev Pending := List (Combinator × Predicate)

/-- The number of nodes still to be looked at. -/
def Pending.size : Pending → Nat
  | [] => 0
  | (_, p) :: pending => p.size + Pending.size pending

theorem Pending.size_cons (c : Combinator) (p : Predicate) (pending : Pending) :
    Pending.size ((c, p) :: pending) = p.size + pending.size := rfl

mutual

/-- Looks at a predicate: down its left edge first. -/
def visit (record : Json) (p : Predicate) (pending : Pending) : Bool :=
  match p with
  | leaf c => resume record (c.selects record) pending
  | join l c r => visit record l ((c, r) :: pending)
termination_by 2 * (p.size + pending.size)
decreasing_by
  · simp only [size]; omega
  · simp only [size, Pending.size_cons]; omega

/-- Goes on after a left-hand side with the given value.  A right-hand side that
    cannot change it is skipped. -/
def resume (record : Json) (value : Bool) (pending : Pending) : Bool :=
  match pending with
  | [] => value
  | (.and, r) :: pending => if value then visit record r pending else resume record value pending
  | (.or, r) :: pending => if value then resume record value pending else visit record r pending
termination_by 2 * pending.size + 1
decreasing_by
  all_goals
    have := r.size_pos
    simp only [Pending.size_cons]
    omega

end

/-- Whether a predicate selects a record. -/
def selects (p : Predicate) (record : Json) : Bool := visit record p []

/-- Looking at a predicate amounts to going on with its plain meaning, whatever
    is still pending. -/
theorem visit_eq (record : Json) (p : Predicate) (pending : Pending) :
    visit record p pending = resume record (p.holds record) pending := by
  induction p generalizing pending with
  | leaf c => rw [visit, holds]
  | join l c r ihl ihr =>
    rw [visit, ihl]
    cases c <;> rw [resume, holds] <;> cases l.holds record <;> simp [ihr]

end Predicate

end RecordFilter
