/-
  Proofs.Places — places outside quotes.

  A place of a text is told by the number of characters before it, and is outside
  quotes if an even number of quotes is among them.

  * `OutsideAt`: the places outside quotes, and `StandsAt`: what stands there;
  * `outsideAt_iff`: whoever reads a text from the left and turns a flag at every
    quote knows whether a place is outside quotes.
-/
import RecordFilter.Proofs.Nest

namespace RecordFilter

namespace Query

/-- The place is outside quotes: the number of quotes before it is even. -/
def OutsideAt (t : Text) (i : Nat) : Prop := Even ((t.take i).count '"')

/-- The character stands at a place outside quotes. -/
def StandsAt (x : Char) (t : Text) (i : Nat) : Prop := t[i]? = some x ∧ OutsideAt t i

instance (t : Text) : DecidablePred (OutsideAt t) := fun i =>
  inferInstanceAs (Decidable (Even ((t.take i).count '"')))

instance (x : Char) (t : Text) : DecidablePred (StandsAt x t) := fun i =>
  inferInstanceAs (Decidable (t[i]? = some x ∧ OutsideAt t i))

theorem quotedAfter_eq_false_iff {t : Text} : quotedAfter false t = false ↔ Even (t.count '"') := by
  induction t with
  | nil => simp [quotedAfter]
  | cons c t ih =>
    by_cases hc : c = '"'
    · subst hc
      rw [quotedAfter, if_pos rfl, quotedAfter_not, Bool.not_eq_false', ← Bool.not_eq_false, ih,
        List.count_cons_self, Nat.even_add_one]
    · rw [quotedAfter, if_neg hc, List.count_cons_of_ne hc, ih]

theorem quotedAfter_eq_true_iff {t : Text} : quotedAfter false t = true ↔ Odd (t.count '"') := by
  rw [← Bool.not_eq_false, quotedAfter_eq_false_iff, Nat.not_even_iff_odd]

theorem outsideAt_iff {t : Text} {i : Nat} : OutsideAt t i ↔ quotedAfter false (t.take i) = false :=
  quotedAfter_eq_false_iff.symm

theorem StandsAt.lt_length {x : Char} {t : Text} {i : Nat} (h : StandsAt x t i) : i < t.length :=
  (List.getElem?_eq_some_iff.1 h.1).1

section
variable {t u : Text} {c : Char} {i : Nat} (h : t.drop i = c :: u)
include h

theorem getElem?_of_drop : t[i]? = some c := by
  have hc : (t.drop i)[0]? = t[i + 0]? := List.getElem?_drop
  rw [h] at hc
  exact hc.symm

theorem drop_succ_of_drop : t.drop (i + 1) = u := by
  rw [← List.tail_drop, h, List.tail_cons]

theorem quotedAfter_take_succ (b : Bool) : quotedAfter b (t.take (i + 1)) =
    if c = '"' then !quotedAfter b (t.take i) else quotedAfter b (t.take i) := by
  rw [List.take_add_one, getElem?_of_drop h, quotedAfter_append]
  rfl

theorem standsAt_iff {x : Char} :
    StandsAt x t i ↔ c = x ∧ quotedAfter false (t.take i) = false := by
  rw [StandsAt, getElem?_of_drop h, Option.some.injEq, outsideAt_iff]

/-- The next mark of a text tells what stands at its place. -/
theorem exists_marks_eq_cons :
    ∃ m, marks (quotedAfter false (t.take i)) (t.drop i) =
        m :: marks (quotedAfter false (t.take (i + 1))) (t.drop (i + 1)) ∧
      (m = .opening ↔ StandsAt '(' t i) ∧ (m = .closing ↔ StandsAt ')' t i) := by
  rw [standsAt_iff h, standsAt_iff h, quotedAfter_take_succ h, drop_succ_of_drop h, h, marks]
  by_cases hq : c = '"'
  · subst hq
    exact ⟨.char '"', by simp, by simp, by simp⟩
  cases hb : quotedAfter false (t.take i) with
  | true => exact ⟨.char c, by simp [hq], by simp, by simp⟩
  | false =>
    by_cases h₁ : c = '('
    · subst h₁
      exact ⟨.opening, by simp, by simp, by simp⟩
    by_cases h₂ : c = ')'
    · subst h₂
      exact ⟨.closing, by simp, by simp, by simp⟩
    exact ⟨.char c, by simp [hq, h₁, h₂], by simp [h₁], by simp [h₂]⟩

end

end Query

end RecordFilter
