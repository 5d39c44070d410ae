/-
  Proofs.EditDistance — the edit distance counts edits.

  The distance is computed from its recurrence.  It is the least number of edits that
  lead from one text to the other: it is a number of such edits, and one edit makes it
  smaller by one at most.

  * `Text.Edit`, `Text.Edits`: one edit, and a number of them one after the other;
  * `Text.edits_editDistance`: as many edits as the distance says are enough;
  * `Text.Edit.editDistance_le`: what one edit does to the distance;
  * `Text.isLeast_editDistance`: fewer edits are not enough.
-/
import Mathlib.Order.Bounds.Basic
import RecordFilter.Text.EditDistance

namespace RecordFilter

namespace Text

/-- A character is inserted, removed or replaced, at the beginning or further behind. -/
inductive Edit : Text → Text → Prop
  | insert (c : Char) (t : Text) : Edit t (c :: t)
  | remove (c : Char) (t : Text) : Edit (c :: t) t
  | replace (c d : Char) (t : Text) : Edit (c :: t) (d :: t)
  | behind (c : Char) {s t : Text} (h : Edit s t) : Edit (c :: s) (c :: t)

/-- That many edits, one after the other, lead from one text to the other. -/
inductive Edits : Nat → Text → Text → Prop
  | nil (t : Text) : Edits 0 t t
  | cons {n : Nat} {s t u : Text} (h : Edit s t) (hs : Edits n t u) : Edits (n + 1) s u

/-! ## The recurrence -/

/-- The edits at the beginning of two texts: the first characters are replaced or kept, or
    one of them is removed or inserted. -/
theorem editDistance_cons_cons_cases (c d : Char) (s t : Text) :
    editDistance (c :: s) (d :: t) = editDistance s t + (if c = d then 0 else 1) ∨
      editDistance (c :: s) (d :: t) = editDistance s (d :: t) + 1 ∨
      editDistance (c :: s) (d :: t) = editDistance (c :: s) t + 1 := by
  rw [editDistance_cons_cons]
  omega

theorem editDistance_cons_cons_le (c d : Char) (s t : Text) :
    editDistance (c :: s) (d :: t) ≤ editDistance s t + if c = d then 0 else 1 := by
  rw [editDistance_cons_cons]
  omega

theorem editDistance_cons_left_le (c : Char) (s t : Text) :
    editDistance (c :: s) t ≤ editDistance s t + 1 := by
  cases t with
  | nil => simp [editDistance_nil_right]
  | cons d t =>
    rw [editDistance_cons_cons]
    omega

theorem editDistance_cons_right_le (d : Char) (s t : Text) :
    editDistance s (d :: t) ≤ editDistance s t + 1 := by
  cases s with
  | nil => simp [editDistance_nil_left]
  | cons c s =>
    rw [editDistance_cons_cons]
    omega

theorem editDistance_self (t : Text) : editDistance t t = 0 := by
  induction t with
  | nil => rfl
  | cons c t ih => simp [editDistance_cons_cons, ih]

/-! ## Enough edits -/

theorem Edits.behind {n : Nat} {s t : Text} (h : Edits n s t) (c : Char) :
    Edits n (c :: s) (c :: t) := by
  induction h with
  | nil t => exact .nil (c :: t)
  | cons h _ ih => exact .cons (.behind c h) ih

theorem edits_insert_all (t : Text) : Edits t.length [] t := by
  induction t with
  | nil => exact .nil []
  | cons c t ih => exact .cons (.insert c []) (ih.behind c)

theorem edits_remove_all (s : Text) : Edits s.length s [] := by
  induction s with
  | nil => exact .nil []
  | cons c s ih => exact .cons (.remove c s) ih

/-- **As many edits as the distance says are enough.** -/
theorem edits_editDistance (s t : Text) : Edits (editDistance s t) s t := by
  induction s generalizing t with
  | nil =>
    rw [editDistance_nil_left]
    exact edits_insert_all t
  | cons c s ihs =>
    induction t with
    | nil =>
      rw [editDistance_nil_right]
      exact edits_remove_all (c :: s)
    | cons d t iht =>
      rcases editDistance_cons_cons_cases c d s t with h | h | h
      · rw [h]
        split_ifs with hcd
        · exact hcd ▸ (ihs t).behind c
        · exact .cons (.replace c d s) ((ihs t).behind d)
      · exact h ▸ .cons (.remove c s) (ihs (d :: t))
      · exact h ▸ .cons (.insert d (c :: s)) (iht.behind d)

/-! ## No fewer edits -/

/-- **One edit makes the distance smaller by one at most.** -/
theorem Edit.editDistance_le {s t : Text} (h : Edit s t) (u : Text) :
    editDistance s u ≤ editDistance t u + 1 := by
  -- whichever way the recurrence goes for `t`, it can go the same way for `s`, or reach
  -- `u` from there by one edit more
  induction h generalizing u with
  | insert c t =>
    induction u with
    | nil =>
      simp only [editDistance_nil_right, List.length_cons]
      omega
    | cons e u ih =>
      have := editDistance_cons_right_le e t u
      have := editDistance_cons_cons_cases c e t u
      omega
  | remove c t => exact editDistance_cons_left_le c t u
  | replace c d t =>
    induction u with
    | nil => simp [editDistance_nil_right]
    | cons e u ih =>
      have := editDistance_cons_cons_le c e t u
      have := editDistance_cons_left_le c t (e :: u)
      have := editDistance_cons_right_le e (c :: t) u
      have := editDistance_cons_cons_cases d e t u
      split_ifs at * <;> omega
  | @behind c s t h ih =>
    induction u with
    | nil => simpa [editDistance_nil_right] using ih []
    | cons e u ihu =>
      have := ih u
      have := ih (e :: u)
      have := editDistance_cons_cons_le c e s u
      have := editDistance_cons_left_le c s (e :: u)
      have := editDistance_cons_right_le e (c :: s) u
      have := editDistance_cons_cons_cases c e t u
      omega

/-- **Fewer edits are not enough.** -/
theorem Edits.editDistance_le {n : Nat} {s t : Text} (h : Edits n s t) : editDistance s t ≤ n := by
  induction h with
  | nil t => rw [editDistance_self]
  | @cons n s t u h _ ih => exact (h.editDistance_le u).trans (Nat.add_le_add_right ih 1)

theorem Edits.eq_of_zero {s t : Text} (h : Edits 0 s t) : s = t := by
  cases h
  rfl

/-- Only a text itself is no edit away. -/
theorem editDistance_eq_zero_iff {s t : Text} : editDistance s t = 0 ↔ s = t := by
  constructor
  · intro h
    exact Edits.eq_of_zero (h ▸ edits_editDistance s t)
  · rintro rfl
    exact editDistance_self s

/-- The distance is the least number of edits. -/
theorem isLeast_editDistance (s t : Text) : IsLeast {n | Edits n s t} (editDistance s t) :=
  ⟨edits_editDistance s t, fun _ h => h.editDistance_le⟩

end Text

end RecordFilter
