/-
  Proofs.Resolution — how the blocks of a nest resolve.

  A reference is written with the number of its group, but read with the digits
  behind the group.  These can only make the number greater.  As every group is
  written once, and a list of blocks without faults refers to every number at
  most once, no number can have changed in it.

  * `Numbered.references_sum_eq`: the counting argument, and
    `Numbered.reads_of_means`: without faults the nest reads as its blocks mean;
  * `Numbered.sound_of_reads`: the blocks of a nest that reads are sound;
  * `Reads.comparisonTotal_eq`: the blocks have the comparisons of the predicate;
  * `Numbered.build_eq_ok_iff`, `Numbered.build_of_reads`: building and reading;
  * `compile_eq_ok_iff`, `compile_of_reads`: compiling and reading.
-/
import RecordFilter.Proofs.Reading
import RecordFilter.Proofs.Results

namespace RecordFilter

namespace Query

namespace Nest

/-! ## Clean nests -/

/-- A nest with its own groups and without the sign of a reference, as allowed
    queries have it. -/
structure Clean (n : Nest Nat) : Prop where
  regular : n.Regular false
  sign_notMem : '$' ∉ n.text

/-- Groups have their own groups, and end outside quotes. -/
theorem closed_of_mem_groups {n : Nest Nat} {b : Bool} (h : n.Regular b) {g : Nat × Nest Nat}
    (hg : g ∈ n.groups) : g.2.Regular false ∧ quotedAfter false g.2.text = false := by
  induction n generalizing b with
  | done => cases hg
  | char c r ih => exact ih h.2 hg
  | group i m r ihm ihr =>
    simp only [groups, List.cons_append, List.mem_cons, List.mem_append] at hg
    rcases hg with rfl | hg | hg
    · exact ⟨h.2.1, h.2.2.1⟩
    · exact ihm h.2.1 hg
    · exact ihr h.2.2.2 hg

theorem toMarks_infix_of_mem_groups {n : Nest Nat} {g : Nat × Nest Nat} (hg : g ∈ n.groups) :
    g.2.toMarks <:+: n.toMarks := by
  induction n with
  | done => cases hg
  | char c r ih => exact (ih hg).trans (List.suffix_cons _ _).isInfix
  | group i m r ihm ihr =>
    have hm : m.toMarks <:+: (group i m r).toMarks := ⟨[.opening], .closing :: r.toMarks, rfl⟩
    have hr : r.toMarks <:+: (group i m r).toMarks :=
      ⟨.opening :: m.toMarks ++ [.closing], [], by simp [toMarks]⟩
    simp only [groups, List.cons_append, List.mem_cons, List.mem_append] at hg
    rcases hg with rfl | hg | hg
    · exact hm
    · exact (ihm hg).trans hm
    · exact (ihr hg).trans hr

theorem text_subset_of_toMarks {n m : Nest Nat} (h : m.toMarks <:+: n.toMarks) :
    m.text ⊆ n.text :=
  List.map_subset _ h.subset

theorem Clean.of_mem_groups {n : Nest Nat} (h : n.Clean) {g : Nat × Nest Nat} (hg : g ∈ n.groups) :
    g.2.Clean :=
  ⟨(closed_of_mem_groups h.regular hg).1, fun hs =>
    h.sign_notMem (text_subset_of_toMarks (toMarks_infix_of_mem_groups hg) hs)⟩

theorem Clean.of_mem_pieces {n s : Nest Nat} (h : n.Clean) (hs : s ∈ n.pieces) : s.Clean :=
  ⟨regular_of_mem_pieces h.regular hs, fun hd =>
    h.sign_notMem (text_subset_of_toMarks (toMarks_infix_of_mem_pieces hs) hd)⟩

/-- A clean piece whose operand has no fault of its own is a comparison, or a
    group with digits behind it. -/
theorem Clean.shape {s : Nest Nat} (h : s.Clean)
    (hr : ∀ t, s.operand = .comparison t → ∃ c, readComparison t = .ok c) :
    (∃ t c, s = ofText t ∧ Spells t c) ∨
      ∃ i m d j, s = group i m (ofText d) ∧ Text.numeral? (Text.ofNat i ++ d) = some j := by
  cases ho : s.operand with
  | comparison t =>
    obtain ⟨c, hc⟩ := hr t ho
    obtain ⟨hs, ht⟩ := eq_of_operand_comparison h.regular ho hc
    exact Or.inl ⟨t, c, hs, ht⟩
  | reference j =>
    obtain ⟨i, m, d, hs, hj⟩ := eq_of_operand_reference h.sign_notMem ho
    exact Or.inr ⟨i, m, d, j, hs, hj⟩

/-! ## Blocks and layers -/

theorem blocks_ne_nil (n : Nest Nat) : n.blocks ≠ [] := by simp [blocks_eq, layers]

theorem operandsOf_blocks (n : Nest Nat) :
    operandsOf n.blocks = n.layers.map fun m => m.pieces.map operand := by
  simp only [operandsOf, blocks_eq, List.map_map, Function.comp_def, operands_ofText_blockText]

theorem references_operandsOf_blocks (n : Nest Nat) :
    (operandsOf n.blocks).flatten.flatMap Operand.references =
      (n.layers.flatMap pieces).flatMap fun s => s.operand.references := by
  rw [operandsOf_blocks, ← List.flatMap_def, ← List.map_flatMap, List.flatMap_map]

theorem flatMap_kids_layers (n : Nest Nat) :
    (n.layers.flatMap pieces).flatMap kids = n.layers.flatMap kids := by
  rw [List.flatMap_assoc]
  exact List.flatMap_congr fun m _ => flatMap_kids_pieces m

theorem mem_operandsOf_blocks {n m s : Nest Nat} (hm : m ∈ n.layers) (hs : s ∈ m.pieces) :
    s.operand ∈ (operandsOf n.blocks).flatten := by
  rw [operandsOf_blocks]
  exact List.mem_flatten.2 ⟨_, List.mem_map_of_mem hm, List.mem_map_of_mem hs⟩

/-- The piece that is written as the operand at a place. -/
theorem exists_piece {n : Nest Nat} {before after : List (List Operand)} {os₁ os₂ : List Operand}
    {o : Operand} (h : operandsOf n.blocks = before ++ (os₁ ++ o :: os₂) :: after) :
    ∃ m s ss ss', n.layers[before.length]? = some m ∧ s ∈ m.pieces ∧ s.operand = o ∧
      n.layers.flatMap pieces = ss ++ s :: ss' ∧ ss.map operand = (before ++ [os₁]).flatten := by
  rw [operandsOf_blocks] at h
  obtain ⟨ms, ms', hms, rfl, h'⟩ := List.map_eq_append_iff.1 h
  obtain ⟨m, ms'', rfl, hm, -⟩ := List.map_eq_cons_iff.1 h'
  obtain ⟨ss, ss', hss, rfl, hs⟩ := List.map_eq_append_iff.1 hm
  obtain ⟨s, ss'', rfl, rfl, -⟩ := List.map_eq_cons_iff.1 hs
  refine ⟨m, s, ms.flatMap pieces ++ ss, ss'' ++ ms''.flatMap pieces, ?_, by simp [hss], rfl, ?_,
    ?_⟩
  · rw [hms, List.length_map, List.getElem?_append_right (Nat.le_refl _)]
    simp
  · simp [hms, hss]
  · simp [List.flatMap_def, Function.comp_def]

theorem sum_flatMap {α : Type} (l : List α) (f : α → List Nat) :
    (l.flatMap f).sum = (l.map fun a => (f a).sum).sum := by
  induction l with
  | nil => rfl
  | cons a l ih => simp [ih]

/-- Lists related to the same list are equal if their elements are. -/
theorem forall₂_unique {α β : Type} {R S : α → β → Prop} {l : List α} {xs ys : List β}
    (hR : List.Forall₂ R l xs) (hS : List.Forall₂ S l ys)
    (h : ∀ a ∈ l, ∀ x y, R a x → S a y → x = y) : xs = ys := by
  induction hR generalizing ys with
  | nil =>
    cases hS
    rfl
  | cons hx _ ih =>
    cases hS with
    | cons hy hys =>
      rw [h _ (by simp) _ _ hx hy, ih hys fun a ha => h a (by simp [ha])]

theorem mem_pieces_of_mem_cut {n : Nest Nat} {x : Combinator × Nest Nat}
    (h : x ∈ (n.cut false).2) : x.2 ∈ n.pieces :=
  List.mem_cons_of_mem _ (List.mem_map_of_mem h)

/-- What the block of a layer means. -/
theorem exists_means_of_layer {n : Nest Nat} {ps : List Predicate}
    (hps : List.Forall₂ (Chain.Means ps) (n.blocks.map Chain.ofText) ps) {k : Nat} {m : Nest Nat}
    (hm : n.layers[k]? = some m) : ∃ p, ps[k]? = some p ∧ ∃ q qs,
      (m.cut false).1.operand.Means ps q ∧
      List.Forall₂ (fun x y => x.1 = y.1 ∧ x.2.operand.Means ps y.2) (m.cut false).2 qs ∧
      p = q.joins qs := by
  obtain ⟨hk, hkm⟩ := List.getElem?_eq_some_iff.1 hm
  have hk₁ : k < (n.blocks.map Chain.ofText).length := by
    rwa [List.length_map, blocks_eq, List.length_map]
  have hk₂ : k < ps.length := hps.length_eq ▸ hk₁
  have hmeans := hps.get hk₁ hk₂
  simp only [blocks_eq, List.map_map, List.get_eq_getElem, List.getElem_map, hkm,
    Function.comp_apply, chain_ofText_blockText] at hmeans
  obtain ⟨q, qs, hq, hqs, hp⟩ := hmeans
  rw [List.forall₂_map_left_iff] at hqs
  exact ⟨ps[k], List.getElem?_eq_getElem hk₂, q, qs, hq, hqs, hp⟩

theorem length_flatMap_congr {α β γ : Type} {l : List α} {f : α → List β} {g : α → List γ}
    (h : ∀ a ∈ l, (f a).length = (g a).length) : (l.flatMap f).length = (l.flatMap g).length := by
  rw [List.length_flatMap, List.length_flatMap, List.map_congr_left h]

namespace Numbered

variable {n : Nest Nat} (hn : n.Numbered) (hc : n.Clean)
include hn

theorem clean_of_mem_layers (hc : n.Clean) {m : Nest Nat} (hm : m ∈ n.layers) : m.Clean := by
  obtain ⟨k, hk⟩ := List.mem_iff_getElem?.1 hm
  rcases hn.eq_of_layers_getElem? hk with h | ⟨-, rfl⟩
  · exact hc.of_mem_groups h
  · exact hc

theorem toMarks_infix_of_mem_layers {m : Nest Nat} (hm : m ∈ n.layers) :
    m.toMarks <:+: n.toMarks := by
  obtain ⟨k, hk⟩ := List.mem_iff_getElem?.1 hm
  rcases hn.eq_of_layers_getElem? hk with h | ⟨-, rfl⟩
  · exact toMarks_infix_of_mem_groups h
  · exact List.infix_rfl

/-- No two pieces have the same group. -/
theorem nodup_kids_pieces : ((n.layers.flatMap pieces).flatMap kids).Nodup := by
  rw [flatMap_kids_layers, hn.kids_perm.nodup_iff]
  exact List.nodup_range

/-! ## From blocks to readings -/

include hc

theorem shape_of_sound (hs : Sound 0 [] (operandsOf n.blocks)) {s : Nest Nat}
    (h : s ∈ n.layers.flatMap pieces) : (∃ t c, s = ofText t ∧ Spells t c) ∨
      ∃ i m d j, s = group i m (ofText d) ∧ Text.numeral? (Text.ofNat i ++ d) = some j := by
  obtain ⟨m, hm, hsm⟩ := List.mem_flatMap.1 h
  exact ((hn.clean_of_mem_layers hc hm).of_mem_pieces hsm).shape fun t ht =>
    hs.readable t (ht ▸ mem_operandsOf_blocks hm hsm)

/-- The references of sound blocks are to all groups, each once. -/
theorem references_perm (hs : Sound 0 [] (operandsOf n.blocks)) :
    ((n.layers.flatMap pieces).flatMap fun s => s.operand.references).Perm
      ((n.layers.flatMap pieces).flatMap kids) := by
  have hlen : ((n.layers.flatMap pieces).flatMap fun s => s.operand.references).length =
      n.labels.length := by
    rw [← List.length_range (n := n.labels.length), ← hn.kids_perm.length_eq, ← flatMap_kids_layers]
    refine length_flatMap_congr fun s h => ?_
    rcases hn.shape_of_sound hc hs h with ⟨t, c, rfl, ht⟩ | ⟨i, m, d, j, rfl, hj⟩
    · simp [operand_ofText ht, Operand.references]
    · simp [operand_group hj, Operand.references, kids]
  have honce := hs.once
  have hearlier := lt_of_earlier hs.earlier
  rw [references_operandsOf_blocks] at honce hearlier
  rw [flatMap_kids_layers]
  -- as many as there are groups, different, and all numbers of groups
  refine List.Perm.trans ?_ hn.kids_perm.symm
  rw [← hlen]
  refine perm_range_of_nodup honce fun i hi => ?_
  have := hearlier i hi
  rw [operandsOf_blocks, List.length_map, length_layers] at this
  omega

/-- **No reference of sound blocks has changed its number.**  None is less than
    it was, and all together they are what they were. -/
theorem references_sum_eq (hs : Sound 0 [] (operandsOf n.blocks)) {s : Nest Nat}
    (h : s ∈ n.layers.flatMap pieces) : s.kids.sum = s.operand.references.sum := by
  have hle : ∀ s ∈ n.layers.flatMap pieces, s.kids.sum ≤ s.operand.references.sum := by
    intro s h
    rcases hn.shape_of_sound hc hs h with ⟨t, c, rfl, ht⟩ | ⟨i, m, d, j, rfl, hj⟩
    · simp
    · simpa [operand_group hj, Operand.references, kids] using le_of_numeral? hj
  have hsum := (hn.references_perm hc hs).sum_eq
  rw [sum_flatMap, sum_flatMap] at hsum
  by_contra hne
  exact (List.sum_lt_sum _ _ hle ⟨s, h, lt_of_le_of_ne (hle s h) hne⟩).ne' hsum

/-- A piece of sound blocks reads as its operand means. -/
theorem reads_operand (hs : Sound 0 [] (operandsOf n.blocks)) {s : Nest Nat}
    (h : s ∈ n.layers.flatMap pieces) {ps : List Predicate} {q : Predicate}
    (hps : ∀ g ∈ s.groups, g.1 ∈ s.kids → ∃ p, ps[g.1]? = some p ∧ Reads .expression g.2 p)
    (hq : s.operand.Means ps q) : Reads .operand s q := by
  have hsum := hn.references_sum_eq hc hs h
  rcases hn.shape_of_sound hc hs h with ⟨t, c, rfl, ht⟩ | ⟨i, m, d, j, rfl, hj⟩
  · rw [operand_ofText ht] at hq
    cases hq with
    | comparison hr =>
      rw [ht.readComparison_eq, Except.ok.injEq] at hr
      exact hr ▸ .comparison ht
  · simp only [operand_group hj, Operand.references, kids, kids_ofText, List.sum_singleton] at hsum
    subst hsum
    obtain ⟨p, hp, hm⟩ := hps (i, m) (by simp [groups]) (by simp [kids])
    rw [operand_group hj] at hq
    cases hq with
    | reference hi =>
      rw [hp, Option.some.injEq] at hi
      exact hi ▸ .group hm hj

/-- **Without faults every layer reads as its block means.**  By induction on
    the number, as a layer refers to lower ones only. -/
theorem reads_of_means (hs : Sound 0 [] (operandsOf n.blocks)) {ps : List Predicate}
    (hps : List.Forall₂ (Chain.Means ps) (n.blocks.map Chain.ofText) ps) {k : Nat} {m : Nest Nat}
    (hm : n.layers[k]? = some m) : ∃ p, ps[k]? = some p ∧ Reads .expression m p := by
  induction k using Nat.strong_induction_on generalizing m with
  | _ k ih =>
    obtain ⟨p, hp, q, qs, hq, hqs, rfl⟩ := exists_means_of_layer hps hm
    refine ⟨_, hp, ?_⟩
    have hpiece : ∀ s ∈ m.pieces, ∀ q, s.operand.Means ps q → Reads .operand s q := by
      intro s hsm q hq
      have hmem : s ∈ n.layers.flatMap pieces :=
        List.mem_flatMap_of_mem (List.mem_of_getElem? hm) hsm
      refine hn.reads_operand hc hs hmem (fun g hg hkid => ?_) hq
      have hkid' := mem_kids_of_mem_pieces hsm hkid
      have hg' := hn.groups_subset_of_layer hm (groups_subset_of_mem_pieces hsm hg)
      exact ih g.1 (hn.lt_of_mem_kids hm hkid') (hn.layers_getElem? hg')
    refine reads_iff_cut.2 ⟨q, qs, hpiece _ (by simp [pieces]) q hq, ?_, rfl⟩
    have hmem : ∀ x ∈ (m.cut false).2, x.2 ∈ m.pieces := fun x => mem_pieces_of_mem_cut
    exact ((List.forall₂_and_left _ _).2 ⟨hmem, hqs⟩).imp fun x y h =>
      ⟨h.2.1, hpiece x.2 h.1 y.2 h.2.2⟩

omit hc

/-! ## From readings to blocks -/

theorem reads_of_layer {p : Predicate} (h : Reads .expression n p) {k : Nat} {m : Nest Nat}
    (hm : n.layers[k]? = some m) : ∃ q, Reads .expression m q := by
  rcases hn.eq_of_layers_getElem? hm with hg | ⟨-, rfl⟩
  · exact h.of_mem_groups hg
  · exact ⟨p, h⟩

theorem operand_spec_of_reads {p : Predicate} (h : Reads .expression n p) {s : Nest Nat}
    (hs : s ∈ n.layers.flatMap pieces) : s.operand.references = s.kids ∧
      ∀ t, s.operand = .comparison t → ∃ c, readComparison t = .ok c := by
  obtain ⟨m, hm, hsm⟩ := List.mem_flatMap.1 hs
  obtain ⟨k, hk⟩ := List.mem_iff_getElem?.1 hm
  obtain ⟨q, hq⟩ := hn.reads_of_layer h hk
  obtain ⟨r, hr⟩ := hq.of_mem_pieces hsm
  exact hr.operand_spec

/-- **The blocks of a nest that reads are sound.** -/
theorem sound_of_reads {p : Predicate} (h : Reads .expression n p) :
    Sound 0 [] (operandsOf n.blocks) := by
  have hrefs : ∀ s ∈ n.layers.flatMap pieces, s.operand.references = s.kids := fun s hs =>
    (hn.operand_spec_of_reads h hs).1
  refine ⟨fun t ht => ?_, fun x hx i hi => ?_, ?_⟩
  · rw [operandsOf_blocks] at ht
    obtain ⟨os, hos, ht⟩ := List.mem_flatten.1 ht
    obtain ⟨m, hm, rfl⟩ := List.mem_map.1 hos
    obtain ⟨s, hs, hst⟩ := List.mem_map.1 ht
    exact (hn.operand_spec_of_reads h (List.mem_flatMap_of_mem hm hs)).2 t hst
  · obtain ⟨os, k⟩ := x
    rw [List.mk_mem_zipIdx_iff_getElem?, operandsOf_blocks, List.getElem?_map,
      Option.map_eq_some_iff] at hx
    obtain ⟨m, hm, rfl⟩ := hx
    rw [List.flatMap_map] at hi
    obtain ⟨s, hs, hi⟩ := List.mem_flatMap.1 hi
    rw [hrefs s (List.mem_flatMap_of_mem (List.mem_of_getElem? hm) hs)] at hi
    exact hn.lt_of_mem_kids hm (mem_kids_of_mem_pieces hs hi)
  · rw [List.nil_append, references_operandsOf_blocks, List.flatMap_congr hrefs]
    exact hn.nodup_kids_pieces

/-- **The blocks of a nest that reads mean nothing else.** -/
theorem getElem?_of_means {ps : List Predicate}
    (hps : List.Forall₂ (Chain.Means ps) (n.blocks.map Chain.ofText) ps) {k : Nat} {m : Nest Nat}
    {p : Predicate} (hm : n.layers[k]? = some m) (h : Reads .expression m p) :
    ps[k]? = some p := by
  induction k using Nat.strong_induction_on generalizing m p with
  | _ k ih =>
    obtain ⟨r, hr, hmeans⟩ := exists_means_of_layer hps hm
    rw [hr, Option.some.injEq]
    have hpiece : ∀ s ∈ m.pieces, ∀ q q', Reads .operand s q → s.operand.Means ps q' → q = q' := by
      intro s hsm q q' hq hq'
      refine hq.means_unique (fun g hg hkid p' hp' => ?_) hq'
      have hkid' := mem_kids_of_mem_pieces hsm hkid
      have hg' := hn.groups_subset_of_layer hm (groups_subset_of_mem_pieces hsm hg)
      exact ih g.1 (hn.lt_of_mem_kids hm hkid') (hn.layers_getElem? hg') hp'
    obtain ⟨q, qs, hq, hqs, rfl⟩ := reads_iff_cut.1 h
    obtain ⟨q', qs', hq', hqs', rfl⟩ := hmeans
    rw [hpiece _ (by simp [pieces]) q q' hq hq', forall₂_unique hqs hqs' ?_]
    rintro x hx ⟨c, r⟩ ⟨c', r'⟩ ⟨rfl, hr⟩ ⟨rfl, hr'⟩
    rw [hpiece x.2 (mem_pieces_of_mem_cut hx) r r' hr hr']

end Numbered

/-! ## The number of comparisons -/

/-- The number of comparisons among the pieces of a nest. -/
def comparisonCount (n : Nest Nat) : Nat := n.pieces.countP (·.operand.isComparison)

theorem Reads.comparisonCount_operand {s : Nest Nat} {q : Predicate} (h : Reads .operand s q) :
    s.comparisonCount = if s.operand.isComparison then 1 else 0 := by
  simp [comparisonCount, pieces, h.cut_eq, List.countP_cons]

/-- A nest that reads has the comparisons of its predicate, in its groups and
    outside them. -/
theorem Reads.comparisons_length {part : Part} {n : Nest Nat} {p : Predicate}
    (h : Reads part n p) : p.comparisons.length =
      (n.groups.map fun g => g.2.comparisonCount).sum + n.comparisonCount := by
  induction h with
  | comparison h =>
    rw [(Reads.comparison h).comparisonCount_operand, operand_ofText h]
    simp [Predicate.comparisons, Operand.isComparison]
  | @group i m d p h hd ih =>
    rw [(Reads.group h hd).comparisonCount_operand, operand_group hd, ih]
    simp [groups, Operand.isComparison, Nat.add_comm]
  | operand _ ih => exact ih
  | @join n k l r c hn hk ihn ihk =>
    have hcount : (n.append ((ofText c.keyword).append k)).comparisonCount =
        n.comparisonCount + k.comparisonCount := by
      rw [comparisonCount, pieces_append_keyword hn.regular.1 hn.regular.2, List.countP_append]
      rfl
    rw [hcount, Predicate.comparisons, List.length_append, ihn, ihk]
    simp only [groups_append, groups_ofText, List.nil_append, List.map_append, List.sum_append]
    omega

theorem comparisonTotal_operandsOf_blocks (n : Nest Nat) :
    comparisonTotal (operandsOf n.blocks) = (n.layers.map comparisonCount).sum := by
  rw [operandsOf_blocks, comparisonTotal, List.countP_flatten, List.map_map]
  congr 2
  funext m
  simp [comparisonCount, List.countP_map, Function.comp_def]

namespace Numbered

variable {n : Nest Nat} (hn : n.Numbered)
include hn

theorem comparisonTotal_eq {p : Predicate} (h : Reads .expression n p) :
    comparisonTotal (operandsOf n.blocks) = p.comparisons.length := by
  rw [comparisonTotal_operandsOf_blocks, (hn.layers_perm.map _).sum_eq, h.comparisons_length]
  simp [Function.comp_def]

/-! ## Building -/

omit hn in
/-- The last block is that of the whole nest. -/
theorem getLast?_of_means {ps : List Predicate}
    (hps : List.Forall₂ (Chain.Means ps) (n.blocks.map Chain.ofText) ps) :
    ps.getLast? = ps[n.labels.length]? := by
  have hlen : ps.length = n.labels.length + 1 := by
    rw [← hps.length_eq, List.length_map, blocks_eq, List.length_map, length_layers]
  rw [List.getLast?_eq_getElem?, hlen, Nat.add_sub_cancel]

/-- **A nest that reads is built, unless it has too many comparisons.** -/
theorem build_of_reads {p : Predicate} (h : Reads .expression n p) :
    build n.blocks = if p.comparisons.length ≤ maxComparisons then .ok p
      else .error (.tooManyComparisons maxComparisons) := by
  have hb := build_meets n.blocks_ne_nil
  rw [faultOf_of_sound (hn.sound_of_reads h) (Nat.zero_le _), Nat.zero_add,
    hn.comparisonTotal_eq h] at hb
  split_ifs at hb ⊢ with hle
  · obtain ⟨p', hp', ps, hps, hlast⟩ := hb
    rw [getLast?_of_means hps, hn.getElem?_of_means hps (layers_getElem?_length n) h,
      Option.some.injEq] at hlast
    rw [hp', hlast]
  · exact hb

/-- **A clean nest is built iff it reads and has not too many comparisons**, and
    then it is built into the predicate that it reads as. -/
theorem build_eq_ok_iff (hc : n.Clean) {p : Predicate} : build n.blocks = .ok p ↔
    Reads .expression n p ∧ p.comparisons.length ≤ maxComparisons := by
  constructor
  · intro h
    obtain ⟨hsound, hle, ps, hps, hlast⟩ := means_of_build n.blocks_ne_nil h
    obtain ⟨q, hq, hreads⟩ := hn.reads_of_means hc hsound hps (layers_getElem?_length n)
    rw [getLast?_of_means hps, hq, Option.some.injEq] at hlast
    subst hlast
    rw [hn.comparisonTotal_eq hreads] at hle
    exact ⟨hreads, hle⟩
  · rintro ⟨h, hle⟩
    rw [hn.build_of_reads h, if_pos hle]

end Numbered

end Nest

/-! ## Queries -/

/-- The nest of a query, its groups numbered. -/
def nestOf (query : Text) : Nest Nat := (Nest.ofMarks (marks false query)).number

/-- All unquoted parentheses of a query have partners. -/
def Balanced (query : Text) : Prop := ∃ n : Nest Unit, n.toMarks = marks false query

theorem Balanced.toMarks_nestOf {q : Text} (h : Balanced q) :
    (nestOf q).toMarks = marks false q := by
  obtain ⟨n, hn⟩ := h
  rw [nestOf, ← hn, Nest.ofMarks_toMarks, Nest.toMarks_number, Nest.bare_unit]

theorem Balanced.text_nestOf {q : Text} (h : Balanced q) : (nestOf q).text = q :=
  (Nest.regular_of_toMarks h.toMarks_nestOf).1

theorem numbered_nestOf (q : Text) : (nestOf q).Numbered := Nest.numbered_number _

theorem sign_notMem_of_isAllowed {q : Text} (h : ∀ c ∈ q, isAllowed c) : '$' ∉ q :=
  fun hs => by cases h _ hs

theorem Balanced.clean_nestOf {q : Text} (h : Balanced q) (hq : ∀ c ∈ q, isAllowed c) :
    (nestOf q).Clean :=
  ⟨(Nest.regular_of_toMarks h.toMarks_nestOf).2, by
    rw [h.text_nestOf]
    exact sign_notMem_of_isAllowed hq⟩

theorem extract_eq_ok_iff {q : Text} {blocks : List Text} :
    extract q = .ok blocks ↔ Balanced q ∧ (nestOf q).blocks = blocks := by
  rw [Balanced, ← Nest.unbalanced?_eq_none_iff, extract]
  cases h : unbalanced? 0 [] (marks false q) <;> simp [nestOf]

theorem validate_eq_error {q : Text} (h : ¬ ∀ c ∈ q, isAllowed c) :
    ∃ e, validate q = .error e := by
  cases hv : validate q with
  | ok u => exact absurd (validate_eq_ok_iff.1 hv) h
  | error e => exact ⟨e, rfl⟩

theorem resolveBlocks_eq_ok_iff {q : Text} {blocks : List Text} : resolveBlocks q = .ok blocks ↔
    q ≠ [] ∧ (∀ c ∈ q, isAllowed c) ∧ Balanced q ∧ (nestOf q).blocks = blocks := by
  rw [resolveBlocks]
  by_cases hq : q = []
  · simp [hq, throw, throwThe, MonadExceptOf.throw, bind, Except.bind]
  by_cases ha : ∀ c ∈ q, isAllowed c
  · rw [if_neg hq, validate_eq_ok_iff.2 ha]
    simp only [bind, Except.bind, extract_eq_ok_iff]
    exact ⟨fun h => ⟨hq, ha, h⟩, fun h => h.2.2⟩
  · obtain ⟨e, he⟩ := validate_eq_error ha
    rw [if_neg hq, he]
    simp [bind, Except.bind, ha]

/-- The blocks of a query are refused for the query as a whole. -/
theorem error_of_resolveBlocks {q : Text} {e : Error} (h : resolveBlocks q = .error e) :
    e = .empty ∨ (∃ c p, e = .invalidCharacter c p) ∨ ∃ p, e = .unbalancedParenthesis p := by
  rw [resolveBlocks] at h
  split_ifs at h
  · cases h
    exact Or.inl rfl
  · rcases eq_error_of_bind h with h | ⟨-, -, h⟩
    · rw [validate] at h
      split at h <;> cases h
      exact Or.inr (Or.inl ⟨_, _, rfl⟩)
    · rw [extract] at h
      split at h <;> cases h
      exact Or.inr (Or.inr ⟨_, rfl⟩)

theorem Nest.Reads.text_ne_nil {part : Part} {n : Nest Nat} {p : Predicate}
    (h : Reads part n p) : n.text ≠ [] := by
  induction h with
  | @comparison t c h =>
    rw [Nest.text_ofText]
    rintro rfl
    have := h.spellable.name_ne_nil
    rcases h.outside_eq with h | ⟨k, l, h⟩ <;> simp_all [outside]
  | group => simp
  | operand _ ih => exact ih
  | join _ _ _ ih _ => simp [ih]

theorem compile_of_resolveBlocks {q : Text} (hq : q ≠ []) (ha : ∀ c ∈ q, isAllowed c)
    (hb : Balanced q) : compile q = build (nestOf q).blocks := by
  rw [compile, resolveBlocks_eq_ok_iff.2 ⟨hq, ha, hb, rfl⟩]
  rfl

/-- **A query that reads compiles, unless it has too many comparisons.** -/
theorem compile_of_reads {q : Text} {p : Predicate} (ha : ∀ c ∈ q, isAllowed c)
    (hb : Balanced q) (h : Nest.Reads .expression (nestOf q) p) :
    compile q = if p.comparisons.length ≤ maxComparisons then .ok p
      else .error (.tooManyComparisons maxComparisons) := by
  have hq : q ≠ [] := hb.text_nestOf ▸ h.text_ne_nil
  rw [compile_of_resolveBlocks hq ha hb, (numbered_nestOf q).build_of_reads h]

/-- **The queries that compile**: those of allowed characters that are balanced,
    read, and have not too many comparisons. -/
theorem compile_eq_ok_iff {q : Text} {p : Predicate} : compile q = .ok p ↔
    (∀ c ∈ q, isAllowed c) ∧ Balanced q ∧ Nest.Reads .expression (nestOf q) p ∧
      p.comparisons.length ≤ maxComparisons := by
  constructor
  · intro h
    cases hr : resolveBlocks q with
    | error e =>
      rw [compile, hr] at h
      cases h
    | ok blocks =>
      obtain ⟨hq, ha, hb, -⟩ := resolveBlocks_eq_ok_iff.1 hr
      rw [compile_of_resolveBlocks hq ha hb,
        (numbered_nestOf q).build_eq_ok_iff (hb.clean_nestOf ha)] at h
      exact ⟨ha, hb, h⟩
  · rintro ⟨ha, hb, h, hle⟩
    rw [compile_of_reads ha hb h, if_pos hle]

end Query

end RecordFilter
