/-
  Proofs.Evaluation — looking at a predicate gives its plain meaning.

  A predicate is looked at with a stack of right-hand sides, some of which are
  skipped.  Each of them counts for the whole left-hand side before it, so the
  stack means what it would mean joined to the predicate from left to right.

  * `Combinator.holds`: what a combinator makes of two truth values;
  * `resume_cons`: one right-hand side less, looked at or skipped;
  * `resume_eq_foldl`: the whole stack;
  * `holds_joins`: the same for predicates joined from left to right.
-/
import RecordFilter.Proofs.Build
import RecordFilter.Scan.Match

namespace RecordFilter

/-- What a combinator makes of two truth values. -/
def Combinator.holds : Combinator → Bool → Bool → Bool
  | and, v, w => v && w
  | or, v, w => v || w

namespace Predicate

theorem holds_join (record : Json) (l : Predicate) (c : Combinator) (r : Predicate) :
    (join l c r).holds record = c.holds (l.holds record) (r.holds record) := by
  cases c <;> rfl

theorem selects_eq_holds (p : Predicate) (record : Json) : p.selects record = p.holds record := by
  rw [selects, visit_eq, resume]

/-- The meaning of the next right-hand side is joined to the value, also if the
    right-hand side is skipped. -/
theorem resume_cons (record : Json) (value : Bool) (c : Combinator) (r : Predicate)
    (pending : Pending) : resume record value ((c, r) :: pending) =
      resume record (c.holds value (r.holds record)) pending := by
  cases c <;> cases value <;> simp [resume, visit_eq, Combinator.holds]

/-- Going on joins the meanings of the right-hand sides to the value, the innermost
    first. -/
theorem resume_eq_foldl (record : Json) (value : Bool) (pending : Pending) :
    resume record value pending =
      pending.foldl (fun v x => x.1.holds v (x.2.holds record)) value := by
  induction pending generalizing value with
  | nil => rw [resume, List.foldl_nil]
  | cons x pending ih => rw [resume_cons, ih, List.foldl_cons]

/-- Predicates joined from left to right are evaluated from left to right. -/
theorem holds_joins (record : Json) (p : Predicate) (qs : List (Combinator × Predicate)) :
    (p.joins qs).holds record =
      qs.foldl (fun v x => x.1.holds v (x.2.holds record)) (p.holds record) := by
  induction qs generalizing p with
  | nil => rfl
  | cons x qs ih =>
    have h := ih (join p x.1 x.2)
    rw [holds_join] at h
    exact h

/-- **Short-circuiting does not change the meaning.**  Whatever right-hand sides are
    pending, a predicate is looked at with the outcome that it has with all of them
    joined to it from left to right and evaluated in full. -/
theorem visit_eq_holds_joins (p : Predicate) (record : Json) :
    p.selects record = p.holds record ∧
    (∀ pending : Pending, visit record p pending = (p.joins pending).holds record) ∧
    ∀ pending : Pending, visit record p pending =
      pending.foldl (fun v x => x.1.holds v (x.2.holds record)) (p.holds record) := by
  have hvisit (pending : Pending) : visit record p pending =
      pending.foldl (fun v x => x.1.holds v (x.2.holds record)) (p.holds record) := by
    rw [visit_eq, resume_eq_foldl]
  refine ⟨selects_eq_holds p record, fun pending => ?_, hvisit⟩
  rw [hvisit, holds_joins]

example : let record := Json.object [("site".toList, .string "east".toList)]
    let north := equal "site".toList "north".toList
    let east := equal "site".toList "east".toList
    (((north.and (isTrue "withdrawn".toList)).or east).selects record,
      (north.and ((isTrue "withdrawn".toList).or east)).selects record) = (true, false) := by
  cbv

end Predicate

end RecordFilter
