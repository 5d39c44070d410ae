/-
  Text.EditDistance — the number of single-character edits between two texts.

  An edit inserts, removes or replaces one character.  The distances from a
  text to all suffixes of another one form a row; `EditDistance.extend` gets the
  row of `c :: s` from the row of `s`, so a distance takes one pass per character.

  * `Text.editDistance`: the edit distance;
  * `editDistance_cons_cons`: its recurrence.
-/
import RecordFilter.Text

namespace RecordFilter

namespace EditDistance

/-- The distances from the empty text to the suffixes of a text, longest first. -/
def base : Text → List Nat
  | [] => [0]
  | c :: t => (c :: t).length :: base t

/-- The row of `c :: s` on the suffixes of `t`, given the row of `s`: the first
    characters are replaced (or kept), `c` is removed, or the first character of
    the suffix is inserted. -/
def extend (c : Char) : Text → List Nat → List Nat
  | d :: t, remove :: keep :: row =>
    match extend c t (keep :: row) with
    | insert :: rest =>
      min (keep + if c = d then 0 else 1) (min (remove + 1) (insert + 1)) :: insert :: rest
    | [] => []
  | _, row => row.map (· + 1)

/-- The distances from `s` to the suffixes of `t`, longest first. -/
def row (s t : Text) : List Nat := s.foldr (fun c r => extend c t r) (base t)

end EditDistance

/-- The least number of single-character insertions, removals and replacements
    that turn `s` into `t`. -/
def Text.editDistance (s t : Text) : Nat := (EditDistance.row s t).headD 0

namespace EditDistance

theorem length_base (t : Text) : (base t).length = t.length + 1 := by
  induction t with
  | nil => rfl
  | cons c t ih => simp [base, ih]

theorem length_extend (c : Char) (t : Text) (r : List Nat) (h : r.length = t.length + 1) :
    (extend c t r).length = t.length + 1 := by
  induction t generalizing r with
  | nil => simp [extend, h]
  | cons d t ih =>
    match r, h with
    | a :: b :: r, h =>
      have hl := ih (b :: r) (by simpa using h)
      rw [extend]
      cases he : extend c t (b :: r) with
      | nil => simp [he] at hl
      | cons x xs => simpa [he] using hl

theorem length_row (s t : Text) : (row s t).length = t.length + 1 := by
  induction s with
  | nil => exact length_base t
  | cons c s ih => exact length_extend c t _ ih

theorem extend_tail (c d : Char) (t : Text) (a : Nat) (r : List Nat)
    (h : r.length = t.length + 1) : (extend c (d :: t) (a :: r)).tail = extend c t r := by
  match r, h with
  | b :: r, h =>
    have hl := length_extend c t (b :: r) h
    rw [extend]
    cases he : extend c t (b :: r) with
    | nil => simp [he] at hl
    | cons x xs => rfl

/-- The row on `d :: t` continues with the row on `t`. -/
theorem row_tail (s : Text) (d : Char) (t : Text) : (row s (d :: t)).tail = row s t := by
  induction s with
  | nil => rfl
  | cons c s ih =>
    have hl := length_row s (d :: t)
    show (extend c (d :: t) (row s (d :: t))).tail = extend c t (row s t)
    cases hr : row s (d :: t) with
    | nil => simp [hr] at hl
    | cons a r =>
      rw [hr] at ih hl
      simp only [List.tail_cons] at ih
      rw [← ih]
      exact extend_tail c d t a r (by simpa using hl)

theorem row_cons (s : Text) (d : Char) (t : Text) :
    row s (d :: t) = Text.editDistance s (d :: t) :: row s t := by
  have hl := length_row s (d :: t)
  have ht := row_tail s d t
  unfold Text.editDistance
  cases hr : row s (d :: t) with
  | nil => simp [hr] at hl
  | cons a r => rw [hr] at ht; simpa using ht

end EditDistance

open EditDistance in
/-- The distance of two non-empty texts comes from those of their tails. -/
theorem Text.editDistance_cons_cons (c d : Char) (s t : Text) :
    editDistance (c :: s) (d :: t) =
      min (editDistance s t + if c = d then 0 else 1)
        (min (editDistance s (d :: t) + 1) (editDistance (c :: s) t + 1)) := by
  have hst := length_row s t
  have hct := length_row (c :: s) t
  have hrow : row (c :: s) (d :: t) = extend c (d :: t) (row s (d :: t)) := rfl
  have hrow' : row (c :: s) t = extend c t (row s t) := rfl
  rw [editDistance, hrow, row_cons s d t]
  cases hs : row s t with
  | nil => simp [hs] at hst
  | cons a r =>
    rw [extend]
    rw [hrow', hs] at hct
    cases he : extend c t (a :: r) with
    | nil => simp [he] at hct
    | cons x xs => simp [editDistance, hrow', hs, he]

theorem Text.editDistance_nil_left (t : Text) : editDistance [] t = t.length := by
  cases t <;> rfl

theorem Text.editDistance_nil_right (s : Text) : editDistance s [] = s.length := by
  suffices h : EditDistance.row s [] = [s.length] by simp [editDistance, h]
  induction s with
  | nil => rfl
  | cons c s ih =>
    show EditDistance.extend c [] (EditDistance.row s []) = _
    rw [ih]; rfl

end RecordFilter
