/-
  Proofs.Operands — what the operands of a block stand for.

  A group is written as a reference to its block, and whatever stands behind the
  group stands behind the reference, so digits there change the number.

  * `KeepsNumber`: the digits behind a reference that leave its number alone;
  * `Nest.operand`: the operand that a piece of a nest is written as;
  * `Nest.eq_of_operand_comparison`, `Nest.eq_of_operand_reference`: the pieces
    that are written as comparisons and as references.
-/
import RecordFilter.Proofs.Outside

namespace RecordFilter

namespace Text

/-! ## Numerals -/

theorem value_append (s d : Text) : value (s ++ d) = 10 ^ d.length * value s + value d := by
  rw [value, Nat.ofDigitChars_append, Nat.ofDigitChars_eq_ofDigitChars_zero]
  rfl

@[simp] theorem value_ofNat (n : Nat) : value (ofNat n) = n := Nat.ofDigitChars_ten_toDigits

theorem isDigit_of_mem_ofNat {n : Nat} {c : Char} (h : c ∈ ofNat n) : c.isDigit :=
  Nat.isDigit_of_mem_toDigits (by decide) (by decide) h

theorem ofNat_ne_nil (n : Nat) : ofNat n ≠ [] := Nat.toDigits_ne_nil

theorem numeral?_eq_some_iff {t : Text} {n : Nat} :
    numeral? t = some n ↔ t ≠ [] ∧ (∀ c ∈ t, c.isDigit) ∧ n ≤ maxIndex ∧ value t = n := by
  unfold numeral?
  constructor
  · intro h
    split_ifs at h with ht
    cases h
    exact ⟨ht.1, List.all_eq_true.1 ht.2.1, ht.2.2, rfl⟩
  · rintro ⟨h₁, h₂, h₃, rfl⟩
    rw [if_pos ⟨h₁, List.all_eq_true.2 h₂, h₃⟩]

theorem value_eq_zero {d : Text} (hd : ∀ x ∈ d, x.isDigit) (h : value d = 0) :
    ∀ x ∈ d, x = '0' := by
  induction d with
  | nil => simp
  | cons c d ih =>
    have hc : value (c :: d) = 10 ^ d.length * (c.toNat - '0'.toNat) + value d := by
      rw [← List.singleton_append, value_append]
      simp [value, Nat.ofDigitChars]
    rw [hc, Nat.add_eq_zero_iff, Nat.mul_eq_zero] at h
    intro x hx
    rcases List.mem_cons.1 hx with rfl | hx
    · have h₀ : x.toNat - '0'.toNat = 0 := h.1.resolve_left (by positivity)
      have h₁ := hd x (by simp)
      simp only [Char.isDigit, ge_iff_le, Bool.and_eq_true, decide_eq_true_eq,
        UInt32.le_iff_toNat_le] at h₁
      refine Char.toNat_inj.1 (Nat.le_antisymm (Nat.sub_eq_zero_iff_le.1 h₀) h₁.1)
    · exact ih (fun y hy => hd y (by simp [hy])) h.2 x hx

theorem value_of_zeros {d : Text} (h : ∀ x ∈ d, x = '0') : value d = 0 := by
  rw [List.eq_replicate_of_mem h, value, Nat.ofDigitChars_replicate_zero, Nat.mul_zero]

end Text

namespace Query

/-- The reference to block `i` still refers to block `i` with `d` behind it. -/
def KeepsNumber (i : Nat) (d : Text) : Prop := Text.numeral? (Text.ofNat i ++ d) = some i

/-- **Only zeros behind the first reference leave the number alone.** -/
theorem keepsNumber_iff {i : Nat} {d : Text} :
    KeepsNumber i d ↔ i ≤ Text.maxIndex ∧ (d = [] ∨ i = 0 ∧ ∀ x ∈ d, x = '0') := by
  rw [KeepsNumber, Text.numeral?_eq_some_iff, Text.value_append, Text.value_ofNat]
  constructor
  · rintro ⟨-, hd, hi, hv⟩
    refine ⟨hi, ?_⟩
    rcases eq_or_ne d [] with h | h
    · exact Or.inl h
    have hpow : 10 ≤ 10 ^ d.length :=
      Nat.le_self_pow (List.length_pos_iff.2 h).ne' 10
    have hmul : 10 * i ≤ 10 ^ d.length * i := Nat.mul_le_mul_right i hpow
    refine Or.inr ⟨by omega, Text.value_eq_zero (fun x hx => hd x (by simp [hx])) (by omega)⟩
  · rintro ⟨hi, rfl | ⟨rfl, hd⟩⟩
    · refine ⟨by simp [Text.ofNat_ne_nil], fun c hc => ?_, hi, by simp [Text.value]⟩
      exact Text.isDigit_of_mem_ofNat (by simpa using hc)
    · refine ⟨by simp [Text.ofNat_ne_nil], fun c hc => ?_, hi, by simp [Text.value_of_zeros hd]⟩
      rcases List.mem_append.1 hc with hc | hc
      · exact Text.isDigit_of_mem_ofNat hc
      · rw [hd c hc]; rfl

theorem KeepsNumber.isDigit {i : Nat} {d : Text} (h : KeepsNumber i d) : ∀ x ∈ d, x.isDigit :=
  fun x hx => (Text.numeral?_eq_some_iff.1 h).2.1 x (List.mem_append_right _ hx)

/-- Digits behind a reference never make its number smaller. -/
theorem le_of_numeral? {i j : Nat} {d : Text} (h : Text.numeral? (Text.ofNat i ++ d) = some j) :
    i ≤ j := by
  rw [Text.numeral?_eq_some_iff, Text.value_append, Text.value_ofNat] at h
  have : 1 * i ≤ 10 ^ d.length * i := Nat.mul_le_mul_right i (Nat.one_le_pow _ _ (by decide))
  omega

/-! ## Operand texts -/

theorem Operand.eq_of_ofText_comparison {t u : Text} (h : Operand.ofText t = .comparison u) :
    u = t := by
  unfold Operand.ofText at h
  split at h
  · split_ifs at h
    · split at h
      · cases h
      · exact (Operand.comparison.inj h).symm
    · exact (Operand.comparison.inj h).symm
  · exact (Operand.comparison.inj h).symm

theorem Operand.ofText_of_head? {t : Text} (h : t.head? ≠ some referenceSign) :
    Operand.ofText t = .comparison t := by
  cases t with
  | nil => rfl
  | cons c t =>
    rw [List.head?_cons, ne_eq, Option.some.injEq] at h
    rw [Operand.ofText, if_neg h]

theorem Operand.ofText_sign_eq_reference_iff {d : Text} {j : Nat} :
    Operand.ofText (referenceSign :: d) = .reference j ↔ Text.numeral? d = some j := by
  rw [Operand.ofText, if_pos rfl]
  cases h : Text.numeral? d <;> simp

theorem Operand.ofText_spells {t : Text} {c : Comparison} (h : Spells t c) :
    Operand.ofText t = .comparison t := by
  refine Operand.ofText_of_head? fun ht => ?_
  obtain ⟨u, rfl⟩ := List.head?_eq_some_iff.1 ht
  exact h.notMem_outside (x := '$') (by simp) (by simp [outside, referenceSign])

namespace Nest

variable {s : Nest Nat}

@[simp] theorem blockText_ofText (t : Text) : (ofText t).blockText = t := by
  induction t with
  | nil => rfl
  | cons c t ih => simp only [ofText, blockText, ih]

/-- The operand that a piece of a block is written as. -/
def operand (s : Nest Nat) : Operand := Operand.ofText s.blockText

/-- **The operands of a block are those of its pieces.** -/
theorem chain_ofText_blockText (n : Nest Nat) : Chain.ofText n.blockText =
    ⟨(n.cut false).1.operand, (n.cut false).2.map fun x => (x.1, x.2.operand)⟩ := by
  simp [Chain.ofText, cut_blockText, operand]

theorem operands_ofText_blockText (n : Nest Nat) :
    (Chain.ofText n.blockText).operands = n.pieces.map operand := by
  simp [chain_ofText_blockText, Chain.operands, pieces]

/-! ## Pieces -/

/-- The reference to a group stands outside quotes, as the group does. -/
theorem sign_mem_outside {b : Bool} (h : s.Regular b) (hk : s.kids ≠ []) :
    '$' ∈ outside b s.blockText := by
  induction s generalizing b with
  | done => exact absurd rfl hk
  | char c r ih =>
    have hr := ih h.2 hk
    rw [blockText, outside]
    cases b <;> by_cases hc : c = '"' <;> simp_all
  | group i m r _ _ =>
    obtain ⟨rfl, -⟩ := h
    simp [blockText, reference, outside, referenceSign]

theorem sign_mem_blockText (hk : s.kids ≠ []) : '$' ∈ s.blockText := by
  induction s with
  | done => exact absurd rfl hk
  | char c r ih => exact List.mem_cons_of_mem c (ih hk)
  | group => simp [blockText, reference, referenceSign]

theorem eq_ofText_of_kids (h : s.kids = []) : s = ofText s.blockText := by
  have := eq_ofText_of_labels (labels_eq_nil_of_kids h)
  rw [this, blockText_ofText]

/-- A piece that is written as a readable comparison has no groups. -/
theorem eq_of_operand_comparison {t : Text} {c : Comparison} (h : s.Regular false)
    (ho : s.operand = .comparison t) (hc : readComparison t = .ok c) :
    s = ofText t ∧ Spells t c := by
  obtain rfl := Operand.eq_of_ofText_comparison ho
  have hs := readComparison_eq_ok_iff.1 hc
  refine ⟨eq_ofText_of_kids ?_, hs⟩
  by_contra hk
  exact hs.notMem_outside (by simp) (sign_mem_outside h hk)

/-- A piece that is written as a reference is one group and digits behind it. -/
theorem eq_of_operand_reference {j : Nat} (hd : '$' ∉ s.text) (ho : s.operand = .reference j) :
    ∃ i m d, s = group i m (ofText d) ∧ Text.numeral? (Text.ofNat i ++ d) = some j := by
  cases s with
  | done => cases ho
  | char c r =>
    simp only [text_char, List.mem_cons, not_or] at hd
    have hc : (c :: r.blockText).head? ≠ some referenceSign := by
      simpa [referenceSign] using Ne.symm hd.1
    rw [operand, blockText, Operand.ofText_of_head? hc] at ho
    cases ho
  | group i m r =>
    rw [operand, blockText, reference, List.cons_append,
      Operand.ofText_sign_eq_reference_iff] at ho
    refine ⟨i, m, r.blockText, ?_, ho⟩
    have hr : r.kids = [] := by
      by_contra hk
      have hdigit := (Text.numeral?_eq_some_iff.1 ho).2.1
      cases hdigit '$' (List.mem_append_right _ (sign_mem_blockText hk))
    rw [← eq_ofText_of_kids hr]

theorem operand_ofText {t : Text} {c : Comparison} (h : Spells t c) :
    (ofText t : Nest Nat).operand = .comparison t := by
  rw [operand, blockText_ofText, Operand.ofText_spells h]

theorem operand_group {i j : Nat} {m : Nest Nat} {d : Text}
    (h : Text.numeral? (Text.ofNat i ++ d) = some j) :
    (group i m (ofText d)).operand = .reference j := by
  rw [operand, blockText, blockText_ofText, reference, List.cons_append,
    Operand.ofText_sign_eq_reference_iff, h]

/-! ## Pieces that are not cut further -/

theorem cut_ofText_of_uncut {t : Text} (h : Uncut t) :
    (ofText t : Nest Nat).cut false = (ofText t, []) := by
  have hc := cut_blockText false (ofText t)
  rw [blockText_ofText, h.cut_eq, Prod.mk.injEq] at hc
  have h₂ : ((ofText t : Nest Nat).cut false).2 = [] := List.map_eq_nil_iff.1 hc.2.symm
  have h₁ := glue_cut false (ofText t : Nest Nat)
  rw [h₂, glue] at h₁
  exact Prod.ext h₁ h₂

theorem uncut_of_digits {d : Text} (h : ∀ x ∈ d, x.isDigit) : Uncut d := by
  refine uncut_of_inert fun x hx => ?_
  have hx' := h x hx
  refine ⟨?_, ?_, ?_⟩ <;> rintro rfl <;> cases hx'

end Nest

end Query

end RecordFilter
