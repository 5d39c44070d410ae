/-
  Proofs.Meaning — the meaning of a list of blocks.

  A block means its operands joined from left to right, where a reference stands for
  what the block that it is to means.  Building computes this with a table out of
  which results are taken, and refuses blocks for which the table would not do.

  * `meaning?`: what a block means;
  * `meaning?_eq_getElem?`: the meaning of each block is what it means over all;
  * `Buildable`: the lists of blocks that can be built;
  * `exists_build_iff`: these and no others are built, and into what the last block
    means.
-/
import RecordFilter.Proofs.Build

namespace RecordFilter

namespace Query

/-! ## Meanings -/

/-- What an operand means if each block means what `meanings` tells. -/
def Operand.meaning? (meanings : Nat → Option Predicate) : Operand → Option Predicate
  | reference i => meanings i
  | comparison t => (readComparison t).toOption.map .leaf

/-- What a chain means: its operands joined from left to right. -/
def Chain.meaning? (meanings : Nat → Option Predicate) (c : Chain) : Option Predicate := do
  let first ← c.first.meaning? meanings
  c.rest.foldlM (fun left x => (x.2.meaning? meanings).map (.join left x.1 ·)) first

/-- What block `i` means.  A reference to an earlier block stands for what that block
    means, and any other one for nothing. -/
def meaning? (blocks : List Text) (i : Nat) : Option Predicate :=
  match blocks[i]? with
  | none => none
  | some block =>
    (Chain.ofText block).meaning? fun j => if j < i then meaning? blocks j else none
termination_by i

section
variable {ps : List Predicate} {meanings : Nat → Option Predicate}

theorem Operand.Means.meaning?_eq {o : Operand} {p : Predicate} (h : o.Means ps p)
    (hm : ∀ i ∈ o.references, meanings i = ps[i]?) : o.meaning? meanings = some p := by
  cases h with
  | @reference i p hp =>
    rw [meaning?, hm i (List.mem_singleton_self i), hp]
  | comparison hc => simp [meaning?, hc, Except.toOption]

/-- Joining further operands to a predicate joins what they mean. -/
theorem foldlM_meaning? {rest : List (Combinator × Operand)} {qs : List (Combinator × Predicate)}
    (h : List.Forall₂ (fun x y => x.1 = y.1 ∧ x.2.Means ps y.2) rest qs)
    (hm : ∀ i ∈ (rest.map (·.2)).flatMap Operand.references, meanings i = ps[i]?)
    (left : Predicate) :
    rest.foldlM (fun left x => (x.2.meaning? meanings).map (.join left x.1 ·)) left =
      some (left.joins qs) := by
  induction h generalizing left with
  | nil => rfl
  | @cons x y rest qs hxy _ ih =>
    obtain ⟨hkeyword, hy⟩ := hxy
    rw [List.map_cons, List.flatMap_cons] at hm
    have hx := hy.meaning?_eq fun i hi => hm i (List.mem_append_left _ hi)
    have hrest := ih (fun i hi => hm i (List.mem_append_right _ hi)) (.join left x.1 y.2)
    rw [List.foldlM_cons, hx, Option.map_some, Option.bind_eq_bind, Option.bind_some, hrest,
      hkeyword]
    rfl

theorem Chain.Means.meaning?_eq {c : Chain} {p : Predicate} (h : c.Means ps p)
    (hm : ∀ i ∈ c.operands.flatMap Operand.references, meanings i = ps[i]?) :
    c.meaning? meanings = some p := by
  obtain ⟨q, qs, hq, hqs, rfl⟩ := h
  rw [Chain.operands, List.flatMap_cons] at hm
  have hfirst := hq.meaning?_eq fun i hi => hm i (List.mem_append_left _ hi)
  rw [Chain.meaning?, hfirst]
  exact foldlM_meaning? hqs (fun i hi => hm i (List.mem_append_right _ hi)) q

end

/-- **The table of all meanings has the meaning of each block**, if every reference is
    to an earlier block. -/
theorem meaning?_eq_getElem? {blocks : List Text} {ps : List Predicate}
    (hps : List.Forall₂ (Chain.Means ps) (blocks.map Chain.ofText) ps)
    (h : ∀ i block, blocks[i]? = some block →
      ∀ j ∈ (Chain.ofText block).operands.flatMap Operand.references, j < i) (i : Nat) :
    meaning? blocks i = ps[i]? := by
  induction i using Nat.strong_induction_on with
  | _ i ih =>
    have hlen : blocks.length = ps.length := by rw [← hps.length_eq, List.length_map]
    rw [meaning?]
    cases hi : blocks[i]? with
    | none =>
      rw [List.getElem?_eq_none_iff, hlen] at hi
      rw [List.getElem?_eq_none hi]
    | some block =>
      obtain ⟨hlt, rfl⟩ := List.getElem?_eq_some_iff.1 hi
      have hmeans := hps.get (i := i) (by simpa using hlt) (hlen ▸ hlt)
      simp only [List.get_eq_getElem, List.getElem_map] at hmeans
      rw [List.getElem?_eq_getElem (hlen ▸ hlt)]
      refine hmeans.meaning?_eq fun j hj => ?_
      have hji := h i _ hi j hj
      rw [if_pos hji, ih j hji]

/-! ## Blocks that can be built -/

/-- The lists of blocks that can be built: every comparison is readable, also in
    blocks that no reference is to, every reference is to an earlier block, no two are
    to the same, and there are not too many comparisons. -/
structure Buildable (blocks : List Text) : Prop where
  ne_nil : blocks ≠ []
  readable : ∀ block ∈ blocks, ∀ t, .comparison t ∈ (Chain.ofText block).operands →
    ∃ c, readComparison t = .ok c
  earlier : ∀ i block, blocks[i]? = some block →
    ∀ j ∈ (Chain.ofText block).operands.flatMap Operand.references, j < i
  once : (blocks.flatMap fun block =>
    (Chain.ofText block).operands.flatMap Operand.references).Nodup
  count_le : (blocks.map fun block => (Chain.ofText block).comparisonCount).sum ≤ 1024

theorem comparisonTotal_operandsOf (blocks : List Text) : comparisonTotal (operandsOf blocks) =
    (blocks.map fun block => (Chain.ofText block).comparisonCount).sum := by
  rw [comparisonTotal, List.countP_flatten, operandsOf, List.map_map]
  rfl

theorem references_operandsOf (blocks : List Text) :
    (operandsOf blocks).flatten.flatMap Operand.references =
      blocks.flatMap fun block => (Chain.ofText block).operands.flatMap Operand.references := by
  rw [operandsOf, ← List.flatMap_def, List.flatMap_assoc]

theorem buildable_iff {blocks : List Text} : Buildable blocks ↔
    blocks ≠ [] ∧ Sound 0 [] (operandsOf blocks) ∧
      comparisonTotal (operandsOf blocks) ≤ maxComparisons := by
  rw [comparisonTotal_operandsOf]
  constructor
  · intro h
    refine ⟨h.ne_nil, ⟨fun t ht => ?_, fun x hx j hj => ?_, ?_⟩, h.count_le⟩
    · obtain ⟨os, hos, ht⟩ := List.mem_flatten.1 ht
      obtain ⟨block, hblock, rfl⟩ := List.mem_map.1 hos
      exact h.readable block hblock t ht
    · obtain ⟨os, i⟩ := x
      rw [List.mk_mem_zipIdx_iff_getElem?, operandsOf, List.getElem?_map,
        Option.map_eq_some_iff] at hx
      obtain ⟨block, hblock, rfl⟩ := hx
      exact h.earlier i block hblock j hj
    · rw [List.nil_append, references_operandsOf]
      exact h.once
  · rintro ⟨hne, hs, hle⟩
    refine ⟨hne, fun block hblock t ht => ?_, fun i block hi j hj => ?_, ?_, hle⟩
    · exact hs.readable t (List.mem_flatten.2 ⟨_, List.mem_map_of_mem hblock, ht⟩)
    · refine hs.earlier ((Chain.ofText block).operands, i) ?_ j hj
      rw [List.mk_mem_zipIdx_iff_getElem?, operandsOf, List.getElem?_map, hi]
      rfl
    · rw [← references_operandsOf, ← List.nil_append (List.flatMap _ _)]
      exact hs.once

/-- **Building computes the meaning of the last block**, for the lists of blocks that
    can be built, and for no others. -/
theorem exists_build_iff (blocks : List Text) :
    ((∃ p, build blocks = .ok p) ↔ Buildable blocks) ∧
      ∀ p, build blocks = .ok p → meaning? blocks (blocks.length - 1) = some p := by
  by_cases hne : blocks = []
  · subst hne
    have hempty : build [] = .error .empty := rfl
    simp [hempty, buildable_iff]
  have hmeaning : ∀ p, build blocks = .ok p →
      Buildable blocks ∧ meaning? blocks (blocks.length - 1) = some p := by
    intro p hp
    obtain ⟨hs, hle, ps, hps, hlast⟩ := means_of_build hne hp
    have hb : Buildable blocks := buildable_iff.2 ⟨hne, hs, hle⟩
    have hlen : blocks.length = ps.length := by rw [← hps.length_eq, List.length_map]
    rw [List.getLast?_eq_getElem?, ← hlen] at hlast
    exact ⟨hb, (meaning?_eq_getElem? hps hb.earlier _).trans hlast⟩
  refine ⟨⟨fun ⟨p, hp⟩ => (hmeaning p hp).1, fun hb => ?_⟩, fun p hp => (hmeaning p hp).2⟩
  obtain ⟨-, hs, hle⟩ := buildable_iff.1 hb
  have hmeets := build_meets hne
  rw [faultOf_of_sound hs (Nat.zero_le _), Nat.zero_add, if_pos hle] at hmeets
  obtain ⟨p, hp, -⟩ := hmeets
  exact ⟨p, hp⟩

/-- A block that no reference is to may stand in the list, if it can be read. -/
example : (build ["a~".toList, "b~".toList]).toOption = some (.isFalse "b".toList) ∧
    (build ["a=".toList, "b~".toList]).toOption = none :=
  ⟨rfl, rfl⟩

end Query

end RecordFilter
