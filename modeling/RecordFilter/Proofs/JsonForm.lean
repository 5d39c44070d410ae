/-
  Proofs.JsonForm — the JSON form of a predicate is unambiguous.

  Its compact text is the text of a value without numbers, so it shows where it ends, and the
  members of the value are all that there is of a predicate.

  * `Predicate.numberFree_json`: there are no numbers in the JSON form;
  * `Predicate.json_injective`: the JSON form keeps the predicate;
  * `Predicate.compact_json_eq_iff`: so does its compact text.
-/
import RecordFilter.Predicate
import RecordFilter.Proofs.JsonText
import RecordFilter.Proofs.WrittenForm

namespace RecordFilter

/-! ## Predicates -/

theorem Operator.name_injective : Function.Injective name := by
  intro op op' h
  have key : ∀ op ∈ all, ∀ op' ∈ all, op.name = op'.name → op = op' := by decide +kernel
  exact key op op.mem_all op' op'.mem_all h

namespace Predicate

theorem numberFree_json (p : Predicate) : p.json.NumberFree := by
  induction p with
  | leaf c =>
    have hoperands : ∀ v ∈ c.operands.map Json.string, v.NumberFree := by
      intro v hv
      obtain ⟨x, -, rfl⟩ := List.mem_map.1 hv
      exact .string x
    refine .object fun m hm => ?_
    simp only [Comparison.members, List.mem_cons, List.not_mem_nil, or_false] at hm
    rcases hm with rfl | rfl | rfl | rfl
    · exact .string _
    · exact .string _
    · exact .string _
    · exact .array hoperands
  | join l c r ihl ihr =>
    refine .object fun m hm => ?_
    simp only [List.mem_cons, List.not_mem_nil, or_false] at hm
    rcases hm with rfl | rfl | rfl | rfl
    · exact .string _
    · exact ihl
    · exact .string _
    · exact ihr

/-- The tag tells comparisons from joins. -/
theorem json_leaf_ne_join (c : Comparison) (l r : Predicate) (k : Combinator) :
    (leaf c).json ≠ (join l k r).json := by
  intro h
  have htag := congrArg (Json.field? "kind".toList) h
  have hleaf : (leaf c).json.field? "kind".toList = some (.string "leaf".toList) := rfl
  have hjoin : (join l k r).json.field? "kind".toList = some (.string "composite".toList) := rfl
  rw [hleaf, hjoin, Option.some.injEq, Json.string.injEq] at htag
  exact absurd htag (by decide +kernel)

/-- **The JSON form keeps the predicate**: every part of it has a member. -/
theorem json_injective : Function.Injective json := by
  intro p q h
  induction p generalizing q with
  | leaf c =>
    cases q with
    | leaf d =>
      obtain ⟨name, op, operands⟩ := c
      obtain ⟨name', op', operands'⟩ := d
      simp only [json, Comparison.members, Json.object.injEq, List.cons.injEq, Prod.mk.injEq,
        true_and, and_true, Json.string.injEq, Json.array.injEq] at h
      obtain ⟨rfl, hop, hoperands⟩ := h
      obtain rfl := Operator.name_injective hop
      obtain rfl := List.map_injective_iff.2 (fun _ _ => Json.string.inj) hoperands
      rfl
    | join => exact absurd h (json_leaf_ne_join _ _ _ _)
  | join l c r ihl ihr =>
    cases q with
    | leaf => exact absurd h.symm (json_leaf_ne_join _ _ _ _)
    | join l' c' r' =>
      simp only [json, Json.object.injEq, List.cons.injEq, Prod.mk.injEq, true_and, and_true,
        Json.string.injEq] at h
      obtain ⟨hl, hc, hr⟩ := h
      rw [ihl hl, Combinator.keyword_injective hc, ihr hr]

/-- **The JSON form is lossless**: two predicates are the same if their compact texts are the
    same, or the beginnings of the same text. -/
theorem compact_json_eq_iff (p q : Predicate) : (p.json.compact = q.json.compact ↔ p = q) ∧
    ∀ s s', p.json.compact ++ s = q.json.compact ++ s' ↔ p = q ∧ s = s' := by
  have key (s s' : Text) : p.json.compact ++ s = q.json.compact ++ s' ↔ p = q ∧ s = s' := by
    constructor
    · intro h
      rw [← Json.writeCompact_eq, ← Json.writeCompact_eq] at h
      obtain ⟨hjson, hs⟩ := p.numberFree_json.cancels q.numberFree_json h
      exact ⟨json_injective hjson, hs⟩
    · rintro ⟨rfl, rfl⟩
      rfl
  exact ⟨by simpa using key [] [], key⟩

/-- A value that looks like the rest of the text is escaped. -/
example : (equal "a".toList "\",\"x".toList).json.compact =
    ("\x7b\"kind\":\"leaf\",\"attribute\":\"a\",\"operator\":\"eq\"," ++
      "\"operands\":[\"\\\",\\\"x\"]\x7d").toList := by decide +kernel

end Predicate

end RecordFilter
