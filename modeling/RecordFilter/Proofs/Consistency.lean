/-
  Proofs.Consistency — the comparisons of one attribute fit together.

  Texts are ordered, with every beginning of a text before the text, and the tests of an
  attribute agree with that order and with each other, also on records in which the
  attribute is missing or no text.

  * `Text.occursIn_iff_infix`, `Text.precedes_eq_false_of_prefix`: beginnings and parts of
    texts;
  * `selects_comparing`: the tests that ask for a text, in one equation;
  * `countP_selects_order`: of the order tests one holds of a text;
  * `comparisons_consistent`: the laws.
-/
import RecordFilter.Proofs.Evaluation

namespace RecordFilter

/-! ## Texts -/

namespace Text

/-- The substring test finds all neighbouring characters, and no others. -/
theorem occursIn_iff_infix {part t : Text} : occursIn part t ↔ part <:+: t := by
  induction t with
  | nil => simp [occursIn]
  | cons c t ih =>
    rw [occursIn, Bool.or_eq_true, List.isPrefixOf_iff_prefix, ih, List.infix_cons_iff]

/-- A text does not come before any of its beginnings. -/
theorem precedes_eq_false_of_prefix {s t : Text} (h : s <+: t) : precedes t s = false := by
  obtain ⟨u, rfl⟩ := h
  induction s with
  | nil => rw [List.nil_append, precedes]
  | cons c s ih => simp [precedes, ih]

/-- Of two texts exactly one comes before the other, or both are the same. -/
theorem countP_order (s t : Text) :
    [s.precedes t, s == t, t.precedes s].countP id = 1 := by
  by_cases h : s = t
  · simp [h, precedes_self]
  · cases hst : s.precedes t with
    | true => simp [h, precedes_asymm hst]
    | false =>
      have hts : t.precedes s := by
        by_contra hts
        exact h (eq_of_not_precedes hst (by simpa using hts))
      simp [h, hts]

theorem beq_eq_not_precedes (s t : Text) : (s == t) = (!s.precedes t && !t.precedes s) := by
  by_cases h : s = t
  · simp [h, precedes_self]
  · cases hst : s.precedes t with
    | true => simp [h]
    | false =>
      cases hts : t.precedes s with
      | true => simp [h]
      | false => exact absurd (eq_of_not_precedes hst hts) h

end Text

namespace Predicate

/-! ## Tests -/

/-- The text of an attribute, if it has one. -/
def textOf (record : Json) (name : Text) : Option Text := (record.field? name).bind Json.string?

theorem textOf_eq_some_iff {record : Json} {name t : Text} :
    textOf record name = some t ↔ record.field? name = some (.string t) := by
  rw [textOf]
  rcases record.field? name with _ | _ | _ | _ | _ | _ | _ <;> simp [Json.string?]

variable (record : Json) (name : Text)

/-- The tests that ask for a text: one that is missing fails them. -/
theorem selects_comparing {op : Operator} (vs : List Text)
    (h : op ∈ [.equal, .before, .atMost, .after, .atLeast, .begins, .between]) :
    (leaf ⟨name, op, vs⟩).selects record = (textOf record name).any (op.compares vs) := by
  rw [selects_eq_holds, holds, textOf]
  simp only [List.mem_cons, List.not_mem_nil, or_false] at h
  rcases h with rfl | rfl | rfl | rfl | rfl | rfl | rfl <;>
    simp only [Comparison.selects] <;>
    cases (record.field? name).bind Json.string? <;> rfl

/-! ## Laws -/

variable (v low high : Text)

theorem selects_between : (between name low high).selects record =
    ((atLeast name low).selects record && (atMost name high).selects record) := by
  rw [between, atLeast, atMost, selects_comparing _ _ _ (by simp),
    selects_comparing _ _ _ (by simp), selects_comparing _ _ _ (by simp)]
  cases textOf record name <;> rfl

theorem selects_equal : (equal name v).selects record =
    ((atLeast name v).selects record && (atMost name v).selects record) := by
  rw [equal, atLeast, atMost, selects_comparing _ _ _ (by simp),
    selects_comparing _ _ _ (by simp), selects_comparing _ _ _ (by simp)]
  cases textOf record name with
  | none => rfl
  | some t => exact t.beq_eq_not_precedes v

theorem selects_notEqual : (notEqual name v).selects record = !(equal name v).selects record := by
  have htest : (notEqual name v).selects record = (textOf record name != some v) := by
    rw [selects_eq_holds]
    rfl
  rw [htest, equal, selects_comparing _ _ _ (by simp)]
  cases textOf record name <;> rfl

/-- One order test holds of a text, and none of anything else. -/
theorem countP_selects_order :
    [before name v, equal name v, after name v].countP (·.selects record) =
      if (textOf record name).isSome then 1 else 0 := by
  have htests : [before name v, equal name v, after name v].countP (·.selects record) =
      [(textOf record name).any (·.precedes v), (textOf record name).any (· == v),
        (textOf record name).any v.precedes].countP id := by
    simp only [before, equal, after, List.countP_cons, List.countP_nil, id_eq]
    rw [selects_comparing _ _ _ (by simp), selects_comparing _ _ _ (by simp),
      selects_comparing _ _ _ (by simp)]
    rfl
  rw [htests]
  cases textOf record name with
  | none => rfl
  | some t => exact t.countP_order v

variable {record name v}

theorem begins_of_equal (h : (equal name v).selects record) : (begins name v).selects record := by
  rw [equal, selects_comparing _ _ _ (by simp), Option.any_eq_true] at h
  obtain ⟨t, ht, heq⟩ := h
  obtain rfl : t = v := by simpa [Operator.compares] using heq
  rw [begins, selects_comparing _ _ _ (by simp), ht]
  simp [Operator.compares]

theorem prefix_of_begins (h : (begins name v).selects record) :
    ∃ t, textOf record name = some t ∧ v <+: t := by
  rw [begins, selects_comparing _ _ _ (by simp), Option.any_eq_true] at h
  obtain ⟨t, ht, hprefix⟩ := h
  exact ⟨t, ht, List.isPrefixOf_iff_prefix.1 hprefix⟩

theorem atLeast_of_begins (h : (begins name v).selects record) :
    (atLeast name v).selects record := by
  obtain ⟨t, ht, hprefix⟩ := prefix_of_begins h
  rw [atLeast, selects_comparing _ _ _ (by simp), ht]
  simp [Operator.compares, Text.precedes_eq_false_of_prefix hprefix]

theorem contains_of_begins (h : (begins name v).selects record) :
    (contains name v).selects record := by
  obtain ⟨t, ht, hprefix⟩ := prefix_of_begins h
  rw [selects_eq_holds, contains, holds, Comparison.selects, textOf_eq_some_iff.1 ht]
  exact Text.occursIn_iff_infix.2 hprefix.isInfix

/-- **The comparisons of an attribute are consistent** on every record: ranges and equality
    come from the two bounds, inequality denies equality, exactly one order test holds of a
    text and none of anything else, and a text begins with itself, and sorts behind and
    contains what it begins with. -/
theorem comparisons_consistent (record : Json) (name v low high : Text) :
    (between name low high).selects record =
        ((atLeast name low).selects record && (atMost name high).selects record) ∧
      (equal name v).selects record =
        ((atLeast name v).selects record && (atMost name v).selects record) ∧
      (notEqual name v).selects record = !(equal name v).selects record ∧
      ((∃ t, record.field? name = some (.string t)) →
        [before name v, equal name v, after name v].countP (·.selects record) = 1) ∧
      ((¬ ∃ t, record.field? name = some (.string t)) →
        [before name v, equal name v, after name v].countP (·.selects record) = 0) ∧
      ((equal name v).selects record → (begins name v).selects record) ∧
      ((begins name v).selects record →
        (atLeast name v).selects record ∧ (contains name v).selects record) := by
  have hsome : (textOf record name).isSome ↔ ∃ t, record.field? name = some (.string t) := by
    rw [Option.isSome_iff_exists]
    exact exists_congr fun t => textOf_eq_some_iff
  refine ⟨selects_between record name low high, selects_equal record name v,
    selects_notEqual record name v, fun htext => ?_, fun htext => ?_, begins_of_equal,
    fun h => ⟨atLeast_of_begins h, contains_of_begins h⟩⟩
  · rw [countP_selects_order, if_pos (hsome.2 htext)]
  · rw [countP_selects_order, if_neg fun h => htext (hsome.1 h)]

/-- A record whose attribute begins with the value, and one with a list of the value. -/
theorem comparisons_consistent_north :
    let text := Json.object [("site".toList, .string "north".toList)]
    let list := Json.object [("site".toList, .array [.string "no".toList])]
    let tests := [before "site".toList "no".toList, equal "site".toList "no".toList,
      after "site".toList "no".toList]
    ((atLeast "site".toList "no".toList).selects text ∧
        (contains "site".toList "no".toList).selects text ∧
        tests.countP (·.selects text) = 1) ∧
      (contains "site".toList "no".toList).selects list ∧
        tests.countP (·.selects list) = 0 := by
  intro text list tests
  obtain ⟨-, -, -, hone, -, -, hbegins⟩ :=
    comparisons_consistent text "site".toList "no".toList [] []
  obtain ⟨-, -, -, -, hnone, -, -⟩ :=
    comparisons_consistent list "site".toList "no".toList [] []
  have htext : text.field? "site".toList = some (.string "north".toList) := rfl
  have hlist : list.field? "site".toList = some (.array [.string "no".toList]) := rfl
  obtain ⟨hleast, hcontains⟩ := hbegins (by cbv)
  refine ⟨⟨hleast, hcontains, hone ⟨_, htext⟩⟩, by cbv, hnone ?_⟩
  rintro ⟨t, ht⟩
  rw [hlist] at ht
  cases ht

end Predicate

end RecordFilter
