/-
  Proofs.Hint — the operator that a hint names.

  A hint names the first of the operators nearest to a token in upper case, if it is near
  enough but not that text itself.  So a token that only has to be put in upper case gets no
  hint, although it is nearer to an operator than any token that gets one.

  * `FirstLeast`: the first element of least value;
  * `nearest_firstLeast`: the operator that is found is the first nearest one;
  * `hint_isSome_iff`: which tokens get a hint, and which operator it names;
  * `hint_mixed_case`: a token that gets none.
-/
import RecordFilter.Proofs.EditDistance
import RecordFilter.Query.Hint

namespace RecordFilter

/-! ## First elements of least value -/

section FirstLeast

variable {α : Type} {value : α → Nat} {x y : α} {xs : List α}

/-- The list has `x` in it, all before it has a greater value, and all behind it no smaller
    one. -/
def FirstLeast (value : α → Nat) (x : α) (xs : List α) : Prop :=
  ∃ before after, xs = before ++ x :: after ∧ (∀ y ∈ before, value x < value y) ∧
    ∀ y ∈ after, value x ≤ value y

theorem FirstLeast.le (h : FirstLeast value x xs) (hy : y ∈ xs) : value x ≤ value y := by
  obtain ⟨before, after, rfl, hbefore, hafter⟩ := h
  rcases List.mem_append.1 hy with hy | hy
  · exact (hbefore y hy).le
  · rcases List.mem_cons.1 hy with rfl | hy
    · exact le_rfl
    · exact hafter y hy

theorem FirstLeast.cons_of_lt (h : FirstLeast value x xs) (hy : value x < value y) :
    FirstLeast value x (y :: xs) := by
  obtain ⟨before, after, rfl, hbefore, hafter⟩ := h
  exact ⟨y :: before, after, rfl, List.forall_mem_cons.2 ⟨hy, hbefore⟩, hafter⟩

/-- An element behind the first one that has no smaller value changes nothing. -/
theorem FirstLeast.insert {z : α} (h : FirstLeast value x (y :: xs)) (hz : value y ≤ value z) :
    FirstLeast value x (y :: z :: xs) := by
  obtain ⟨before, after, heq, hbefore, hafter⟩ := h
  cases before with
  | nil =>
    obtain ⟨rfl, rfl⟩ := List.cons.inj heq
    exact ⟨[], z :: xs, rfl, by simp, List.forall_mem_cons.2 ⟨hz, hafter⟩⟩
  | cons b before =>
    obtain ⟨rfl, rfl⟩ := List.cons.inj heq
    obtain ⟨hy, hbefore⟩ := List.forall_mem_cons.1 hbefore
    exact ⟨y :: z :: before, after, rfl,
      List.forall_mem_cons.2 ⟨hy, List.forall_mem_cons.2 ⟨hy.trans_le hz, hbefore⟩⟩, hafter⟩

end FirstLeast

namespace Query

/-- **The operator that is found is the first nearest one.** -/
theorem nearest_firstLeast (distance : Operator → Nat) (best : Operator) (ops : List Operator) :
    FirstLeast distance (nearest distance best ops) (best :: ops) := by
  induction ops generalizing best with
  | nil => exact ⟨[], [], rfl, by simp, by simp⟩
  | cons op ops ih =>
    rw [nearest]
    split_ifs with hlt
    · have hop : distance (nearest distance op ops) ≤ distance op := (ih op).le List.mem_cons_self
      exact (ih op).cons_of_lt (hop.trans_lt hlt)
    · exact (ih best).insert (Nat.le_of_not_lt hlt)

/-- The search starts with the operator that is looked at first. -/
theorem nearest_equal_all (distance : Operator → Nat) :
    FirstLeast distance (nearest distance .equal Operator.all) Operator.all := by
  have hall : Operator.all = .equal :: Operator.all.tail := rfl
  have hnearest :
      nearest distance .equal Operator.all = nearest distance .equal Operator.all.tail := by
    rw [hall, nearest, if_neg (lt_irrefl _), List.tail_cons]
  rw [hnearest]
  exact nearest_firstLeast distance .equal Operator.all.tail

/-! ## Hints -/

/-- The numbers of edits that lead from a token in upper case to an operator. -/
def editCounts (token : Text) : Set Nat :=
  {n | ∃ op : Operator, Text.Edits n token.upper op.token}

section
variable {token : Text} {op : Operator}
  (h : FirstLeast (fun op => Text.editDistance token.upper op.token) op Operator.all)
include h

theorem isLeast_editCounts :
    IsLeast (editCounts token) (Text.editDistance token.upper op.token) := by
  refine ⟨⟨op, (Text.isLeast_editDistance _ _).1⟩, ?_⟩
  rintro n ⟨op', hop'⟩
  exact (h.le op'.mem_all).trans ((Text.isLeast_editDistance _ _).2 hop')

/-- The nearest operator is no edit away iff the token in upper case is an operator. -/
theorem nearest_eq_zero_iff : Text.editDistance token.upper op.token = 0 ↔
    ∃ op', Operator.ofToken? token.upper = some op' := by
  rw [Text.editDistance_eq_zero_iff]
  constructor
  · intro heq
    exact ⟨op, Operator.ofToken?_eq_some_iff.2 heq.symm⟩
  · rintro ⟨op', hop'⟩
    have hle := h.le op'.mem_all
    rw [Operator.token_of_ofToken? hop', Text.editDistance_self] at hle
    exact Text.editDistance_eq_zero_iff.1 (Nat.le_zero.1 hle)

end

/-- A hint is the first nearest operator, if that is near enough and not the token in upper
    case.  No operator is near enough to the empty token. -/
theorem hint_eq (token : Text) : ∃ op,
    FirstLeast (fun op => Text.editDistance token.upper op.token) op Operator.all ∧
      hint token = if 0 < Text.editDistance token.upper op.token ∧
        Text.editDistance token.upper op.token ≤ min 2 ((token.length + 1) / 2)
      then some op else none := by
  refine ⟨_, nearest_equal_all _, if_congr (and_iff_right_of_imp ?_) rfl rfl⟩
  rintro ⟨hpos, hle⟩ rfl
  exact absurd (hpos.trans_le hle) (by decide)

/-- **Hints are complete and nearest, but for tokens that only have to be put in upper
    case.**  With `d` the least number of edits from the token in upper case to an operator,
    there is a hint iff `d` is no more than two and no more than half of the token, rounded
    up, and is not zero.  It names the first operator that is `d` edits away. -/
theorem hint_isSome_iff (token : Text) : ∃ d, IsLeast (editCounts token) d ∧
    ((hint token).isSome ↔ 0 < d ∧ d ≤ min 2 ((token.length + 1) / 2)) ∧
    (d = 0 ↔ ∃ op, Operator.ofToken? token.upper = some op) ∧
    ∀ op, hint token = some op → ∃ before after, Operator.all = before ++ op :: after ∧
      Text.Edits d token.upper op.token ∧ ∀ o ∈ before, ¬ Text.Edits d token.upper o.token := by
  obtain ⟨op, hop, hhint⟩ := hint_eq token
  refine ⟨Text.editDistance token.upper op.token, isLeast_editCounts hop, ?_,
    nearest_eq_zero_iff hop, fun op' hop' => ?_⟩
  · rw [hhint, Option.isSome_ite]
  · rw [hhint, Option.ite_none_right_eq_some] at hop'
    obtain rfl : op = op' := Option.some.inj hop'.2
    obtain ⟨before, after, hall, hbefore, -⟩ := hop
    refine ⟨before, after, hall, Text.edits_editDistance _ _, fun o ho hedits => ?_⟩
    exact absurd hedits.editDistance_le (Nat.not_le_of_lt (hbefore o ho))

/-- A token that differs from an operator by its case only gets no hint. -/
theorem hint_mixed_case : Operator.ofToken? "Begins".toList = none ∧
    IsLeast (editCounts "Begins".toList) 0 ∧
    ¬ ((hint "Begins".toList).isSome ↔ 0 ≤ min 2 (("Begins".toList.length + 1) / 2)) := by
  refine ⟨by decide, ⟨⟨.begins, ?_⟩, fun n _ => Nat.zero_le n⟩, fun h => ?_⟩
  · have hupper : Text.upper "Begins".toList = Operator.begins.token := by decide +kernel
    rw [hupper]
    exact .nil _
  · have hnone : hint "Begins".toList = none := by decide +kernel
    rw [hnone] at h
    exact absurd (h.2 (Nat.zero_le _)) (by decide)

end Query

end RecordFilter
