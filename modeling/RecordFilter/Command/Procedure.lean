/-
  Command.Procedure — what a command does, step by step.

  A step may fail.  What has been done and written before it stays.

  * `Effects`: what has been done so far;
  * `Procedure`: steps that come to a result or to a failure;
  * `Procedure.write`, `Procedure.remark`, `Procedure.change`: single steps.
-/
import RecordFilter.Command.Failure
import RecordFilter.Files

namespace RecordFilter

/-- What has been done so far. -/
structure Effects where
  files : Files
  /-- What is written as the answer. -/
  output : Text
  /-- What is written apart from it. -/
  errors : Text

/-- Nothing has been done yet. -/
def Effects.start (files : Files) : Effects := ⟨files, [], []⟩

/-- Steps that come to a result or to a failure. -/
abbrev Procedure := EStateM Failure Effects

namespace Procedure

/-- The files as they are now. -/
def files : Procedure Files := fun e => .ok e.files e

/-- Writes a piece of the answer. -/
def write (t : Text) : Procedure Unit := fun e => .ok () { e with output := e.output ++ t }

/-- Writes a text apart from the answer. -/
def remark (t : Text) : Procedure Unit := fun e => .ok () { e with errors := e.errors ++ t }

/-- The result of a query, or the failure of that query. -/
def ofQuery {α : Type} (query : Text) (result : Except Query.Error α) : Procedure α :=
  ofExcept (result.mapError (.query query))

/-- A result on settings, or its failure. -/
def ofSettings {α : Type} (result : Except Settings.Error α) : Procedure α :=
  ofExcept (result.mapError .settings)

/-- Changes the files.  They may be changed in part if this fails. -/
def change (step : Files → Files × Except Settings.Error Unit) : Procedure Unit := fun e =>
  match step e.files with
  | (files, .ok ()) => .ok () { e with files }
  | (files, .error cause) => .error (.settings cause) { e with files }

section
variable {α β : Type} {e e' : Effects} {f : Failure}

@[simp] theorem files_bind (k : Files → Procedure β) : (files >>= k) e = k e.files e := rfl

@[simp] theorem ofQuery_ok_bind (q : Text) (a : α) (k : α → Procedure β) :
    (ofQuery q (.ok a) >>= k) e = k a e := rfl

@[simp] theorem ofQuery_error_bind (q : Text) (c : Query.Error) (k : α → Procedure β) :
    (ofQuery q (.error c) >>= k) e = .error (.query q c) e := rfl

@[simp] theorem ofSettings_ok_bind (a : α) (k : α → Procedure β) :
    (ofSettings (.ok a) >>= k) e = k a e := rfl

@[simp] theorem ofSettings_error_bind (c : Settings.Error) (k : α → Procedure β) :
    (ofSettings (.error c) >>= k) e = .error (.settings c) e := rfl

theorem write_ne_error (t : Text) : write t e ≠ .error f e' := by
  intro h
  cases h

/-- Steps fail in one of them, with what was done up to there. -/
theorem eq_error_of_bind {a : Procedure α} {k : α → Procedure β}
    (h : (a >>= k) e = .error f e') :
    a e = .error f e' ∨ ∃ x e₁, a e = .ok x e₁ ∧ k x e₁ = .error f e' := by
  cases ha : a e with
  | ok x e₁ =>
    simp only [bind, EStateM.bind, ha] at h
    exact Or.inr ⟨x, e₁, rfl, h⟩
  | error f₁ e₁ =>
    simp only [bind, EStateM.bind, ha] at h
    cases h
    exact Or.inl rfl

theorem eq_of_ofExcept_error {x : Except Failure α}
    (h : (ofExcept x : Procedure α) e = .error f e') : x = .error f ∧ e' = e := by
  cases x with
  | error f' =>
    cases h
    exact ⟨rfl, rfl⟩
  | ok a => cases h

end

end Procedure

end RecordFilter
