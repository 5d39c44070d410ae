/-
  Proofs.Build — what a list of blocks is built into.

  Building takes results out of a table.  Apart from the table this is a search
  for the first fault and, if there is none, a reading of each block over the
  meanings of all blocks.

  * `Chain.Means`: the pure meaning of a block over those of the others;
  * `faultOf`: the first fault in the operands of a list of blocks;
  * `build_meets`: building reports the first fault, or gives the meaning;
  * `Sound`: the blocks in which nothing but the number of comparisons can be
    wrong, and `faultOf_eq_none_iff`, `faultOf_of_sound`;
  * `faultOf_eq_fault_iff`, `faultOf_eq_unresolved_iff`: when an operand is the
    first fault, and when a reference is.
-/
import Mathlib
import RecordFilter.Query.Compile

namespace RecordFilter

/-- Further predicates joined to a predicate, from left to right. -/
def Predicate.joins (p : Predicate) (qs : List (Combinator × Predicate)) : Predicate :=
  qs.foldl (fun l x => .join l x.1 x.2) p

namespace Query

/-! ## Meanings -/

namespace Operand

/-- The block that an operand refers to, if it is a reference. -/
def references : Operand → List Nat
  | reference i => [i]
  | comparison _ => []

theorem eq_of_mem_references {o : Operand} {i : Nat} (h : i ∈ o.references) : o = reference i := by
  cases o with
  | reference j => rw [List.mem_singleton.1 h]
  | comparison t => cases h

/-- What an operand means if the blocks mean `ps`. -/
inductive Means (ps : List Predicate) : Operand → Predicate → Prop
  | reference {i : Nat} {p : Predicate} (h : ps[i]? = some p) : Means ps (reference i) p
  | comparison {t : Text} {c : Comparison} (h : readComparison t = .ok c) :
      Means ps (comparison t) (.leaf c)

theorem Means.append {ps : List Predicate} {o : Operand} {p : Predicate} (h : o.Means ps p)
    (qs : List Predicate) : o.Means (ps ++ qs) p := by
  cases h with
  | reference h =>
    have hlt := (List.getElem?_eq_some_iff.1 h).1
    exact .reference (List.getElem?_append_left hlt ▸ h)
  | comparison h => exact .comparison h

end Operand

namespace Chain

/-- What a chain means if the blocks mean `ps`: its operands, joined from left
    to right. -/
def Means (ps : List Predicate) (c : Chain) (p : Predicate) : Prop :=
  ∃ q qs, c.first.Means ps q ∧
    List.Forall₂ (fun x y => x.1 = y.1 ∧ x.2.Means ps y.2) c.rest qs ∧ p = q.joins qs

theorem Means.append {ps : List Predicate} {c : Chain} {p : Predicate} (h : c.Means ps p)
    (qs : List Predicate) : c.Means (ps ++ qs) p := by
  obtain ⟨q, rs, hq, hrs, rfl⟩ := h
  exact ⟨q, rs, hq.append qs, hrs.imp fun _ _ h => ⟨h.1, h.2.append qs⟩, rfl⟩

end Chain

/-! ## Faults -/

/-- The operands of the blocks. -/
def operandsOf (blocks : List Text) : List (List Operand) :=
  blocks.map fun block => (Chain.ofText block).operands

/-- Whether an operand is a comparison. -/
def Operand.isComparison : Operand → Bool
  | comparison _ => true
  | reference _ => false

theorem Chain.comparisonCount_eq (c : Chain) :
    c.comparisonCount = c.operands.countP Operand.isComparison := rfl

/-- Why an operand of a block fails, after the references `used`. -/
def Operand.fault? (block : Nat) (used : List Nat) : Operand → Option Error
  | reference i =>
    if i < block ∧ i ∉ used then none else some (.unresolvedReference block i)
  | comparison t =>
    match readComparison t with
    | .ok _ => none
    | .error fault => some (.invalidComparison t fault)

/-- The first fault among the operands of a block. -/
def faultAmong (block : Nat) (used : List Nat) : List Operand → Option Error
  | [] => none
  | o :: os => (o.fault? block used).or (faultAmong block (used ++ o.references) os)

/-- The first fault of the blocks with the given operands, the first of which has
    the number `block`, after the references `used` and `count` comparisons. -/
def faultOf (block : Nat) (used : List Nat) (count : Nat) : List (List Operand) → Option Error
  | [] => none
  | os :: oss =>
    if maxComparisons < count + os.countP Operand.isComparison then
      some (.tooManyComparisons maxComparisons)
    else
      (faultAmong block used os).or
        (faultOf (block + 1) (used ++ os.flatMap Operand.references)
          (count + os.countP Operand.isComparison) oss)

/-- The result is the fault or, if there is none, a value with the given property. -/
def Meets {α : Type} (fault : Option Error) (r : Except Error α) (post : α → Prop) : Prop :=
  match fault with
  | some e => r = .error e
  | none => ∃ a, r = .ok a ∧ post a

theorem Meets.mono {α : Type} {fault : Option Error} {r : Except Error α} {post post' : α → Prop}
    (h : Meets fault r post) (hp : ∀ a, post a → post' a) : Meets fault r post' := by
  cases fault with
  | some e => exact h
  | none =>
    obtain ⟨a, ha, hpa⟩ := h
    exact ⟨a, ha, hp a hpa⟩

theorem Meets.bind {α β : Type} {f g : Option Error} {r : Except Error α} {k : α → Except Error β}
    {post : α → Prop} {post' : β → Prop} (h : Meets f r post)
    (hk : ∀ a, post a → Meets g (k a) post') : Meets (f.or g) (r >>= k) post' := by
  cases f with
  | some e =>
    rw [Meets] at h
    rw [h]
    rfl
  | none =>
    obtain ⟨a, rfl, ha⟩ := h
    exact hk a ha

/-! ## The table -/

/-- The slots of blocks with the given meanings, after the references `used`. -/
def slotsOf (ps : List Predicate) (used : List Nat) : Slots :=
  ps.mapIdx fun i p => if i ∈ used then none else some p

@[simp] theorem length_slotsOf (ps : List Predicate) (used : List Nat) :
    (slotsOf ps used).length = ps.length := by
  simp [slotsOf]

theorem slotsOf_concat {ps : List Predicate} {used : List Nat} (h : ps.length ∉ used)
    (p : Predicate) : slotsOf ps used ++ [some p] = slotsOf (ps ++ [p]) used := by
  simp [slotsOf, List.mapIdx_append, h]

theorem take?_slotsOf {ps : List Predicate} {used : List Nat} {i : Nat} {p : Predicate}
    (hp : ps[i]? = some p) (hi : i ∉ used) :
    (slotsOf ps used).take? i = some (p, slotsOf ps (used ++ [i])) := by
  have h : (slotsOf ps used)[i]? = some (some p) := by simp [slotsOf, hp, hi]
  have hset : (slotsOf ps used).set i none = slotsOf ps (used ++ [i]) := by
    refine List.ext_getElem (by simp) fun j h₁ h₂ => ?_
    by_cases hj : i = j
    · simp [slotsOf, hj]
    · simp [slotsOf, hj, Ne.symm hj]
  simp [Slots.take?, h, hset]

theorem take?_slotsOf_eq_none {ps : List Predicate} {used : List Nat} {i : Nat}
    (h : ¬ (i < ps.length ∧ i ∉ used)) : (slotsOf ps used).take? i = none := by
  have key : ∀ p, (slotsOf ps used)[i]? ≠ some (some p) := by
    intro p hp
    simp only [slotsOf, List.getElem?_mapIdx, Option.map_eq_some_iff] at hp
    obtain ⟨q, hq, hqp⟩ := hp
    split_ifs at hqp with hi
    exact h ⟨(List.getElem?_eq_some_iff.1 hq).1, hi⟩
  unfold Slots.take?
  split
  · next p hp => exact absurd hp (key p)
  · rfl

theorem getLast?_slotsOf {ps : List Predicate} {used : List Nat} (hne : ps ≠ [])
    (h : ps.length - 1 ∉ used) : (slotsOf ps used).getLast? = some (some (ps.getLast hne)) := by
  rw [List.getLast?_eq_getElem?, length_slotsOf, slotsOf, List.getElem?_mapIdx,
    ← List.getLast?_eq_getElem?, List.getLast?_eq_getLast_of_ne_nil hne, Option.map_some, if_neg h]

/-! ## Building -/

section
variable (ps : List Predicate) (used : List Nat)

theorem resolve_meets (o : Operand) :
    Meets (o.fault? ps.length used) (resolve (slotsOf ps used) o)
      fun r => o.Means ps r.1 ∧ r.2 = slotsOf ps (used ++ o.references) := by
  cases o with
  | reference i =>
    rw [Operand.fault?, resolve]
    split_ifs with h
    · have hp : ps[i]? = some ps[i] := List.getElem?_eq_getElem h.1
      rw [take?_slotsOf hp h.2]
      exact ⟨_, rfl, .reference hp, rfl⟩
    · rw [take?_slotsOf_eq_none h, length_slotsOf]
      rfl
  | comparison t =>
    rw [Operand.fault?, resolve]
    cases h : readComparison t with
    | ok c => exact ⟨_, rfl, .comparison h, by simp [Operand.references]⟩
    | error fault => rfl

theorem joinAll_meets (rest : List (Combinator × Operand)) (left : Predicate) :
    Meets (faultAmong ps.length used (rest.map (·.2))) (joinAll (slotsOf ps used) left rest)
      fun r => (∃ qs, List.Forall₂ (fun x y => x.1 = y.1 ∧ x.2.Means ps y.2) rest qs ∧
        r.1 = left.joins qs) ∧
        r.2 = slotsOf ps (used ++ (rest.map (·.2)).flatMap Operand.references) := by
  induction rest generalizing used left with
  | nil => exact ⟨_, rfl, ⟨[], .nil, rfl⟩, by simp⟩
  | cons x rest ih =>
    rw [joinAll, List.map_cons, faultAmong]
    refine (resolve_meets ps used x.2).bind ?_
    rintro ⟨right, slots⟩ ⟨hm, rfl⟩
    refine (ih (used ++ x.2.references) (.join left x.1 right)).mono ?_
    rintro ⟨p, slots⟩ ⟨⟨qs, hqs, rfl⟩, rfl⟩
    exact ⟨⟨(x.1, right) :: qs, .cons ⟨rfl, hm⟩ hqs, rfl⟩, by simp⟩

theorem Chain.build_meets (c : Chain) :
    Meets (faultAmong ps.length used c.operands) (c.build (slotsOf ps used))
      fun r => c.Means ps r.1 ∧
        r.2 = slotsOf ps (used ++ c.operands.flatMap Operand.references) := by
  rw [Chain.build, Chain.operands, faultAmong]
  refine (resolve_meets ps used c.first).bind ?_
  rintro ⟨q, slots⟩ ⟨hq, rfl⟩
  refine (joinAll_meets ps _ c.rest q).mono ?_
  rintro ⟨p, slots⟩ ⟨⟨qs, hqs, rfl⟩, rfl⟩
  exact ⟨⟨q, qs, hq, hqs, rfl⟩, by simp⟩

end

theorem lt_of_faultAmong {block : Nat} {used : List Nat} {os : List Operand}
    (h : faultAmong block used os = none) : ∀ i ∈ os.flatMap Operand.references, i < block := by
  induction os generalizing used with
  | nil => simp
  | cons o os ih =>
    rw [faultAmong, Option.or_eq_none_iff] at h
    intro i hi
    rw [List.flatMap_cons, List.mem_append] at hi
    rcases hi with hi | hi
    · cases o with
      | reference j =>
        obtain rfl := List.mem_singleton.1 hi
        by_contra hlt
        have := h.1
        rw [Operand.fault?, if_neg fun hj => hlt hj.1] at this
        cases this
      | comparison t => cases hi
    · exact ih h.2 i hi

/-- **The loop over the blocks.** -/
theorem buildAll_meets (blocks : List Text) (ps : List Predicate) (used : List Nat) (count : Nat)
    (hused : ∀ i ∈ used, i < ps.length) :
    Meets (faultOf ps.length used count (operandsOf blocks))
      (buildAll (slotsOf ps used) count blocks)
      fun s => ∃ qs, List.Forall₂ (Chain.Means (ps ++ qs)) (blocks.map Chain.ofText) qs ∧
        s = slotsOf (ps ++ qs)
          (used ++ (operandsOf blocks).flatten.flatMap Operand.references) := by
  induction blocks generalizing ps used count with
  | nil => exact ⟨_, rfl, [], .nil, by simp [operandsOf]⟩
  | cons block blocks ih =>
    rw [buildAll, operandsOf, List.map_cons, faultOf, ← operandsOf, Chain.comparisonCount_eq]
    set c := Chain.ofText block
    by_cases hc : maxComparisons < count + c.operands.countP Operand.isComparison
    · rw [if_pos hc, if_pos hc]
      rfl
    rw [if_neg hc, if_neg hc]
    have h := c.build_meets ps used
    cases hf : faultAmong ps.length used c.operands with
    | some e =>
      rw [hf] at h
      have h' : c.build (slotsOf ps used) = .error e := h
      simp only [h']
      rfl
    | none =>
      rw [hf] at h
      obtain ⟨⟨p, slots⟩, hb, hp, hs⟩ := h
      simp only at hp hs
      subst hs
      have hused' : ∀ i ∈ used ++ c.operands.flatMap Operand.references, i < ps.length := by
        intro i hi
        rcases List.mem_append.1 hi with hi | hi
        · exact hused i hi
        · exact lt_of_faultAmong hf i hi
      have := ih (ps ++ [p]) (used ++ c.operands.flatMap Operand.references)
        (count + c.operands.countP Operand.isComparison) fun i hi => (hused' i hi).trans (by simp)
      rw [List.length_append, List.length_singleton,
        ← slotsOf_concat fun h => (hused' _ h).ne rfl] at this
      rw [Option.none_or]
      simp only [hb]
      refine this.mono ?_
      rintro s ⟨qs, hqs, rfl⟩
      rw [List.append_assoc, List.singleton_append] at hqs ⊢
      exact ⟨p :: qs, .cons (hp.append _) hqs, by simp⟩

/-! ## Sound blocks -/

theorem Operand.fault?_eq_none_iff {block : Nat} {used : List Nat} {o : Operand} :
    o.fault? block used = none ↔
      (∀ t, o = .comparison t → ∃ c, readComparison t = .ok c) ∧
        ∀ i ∈ o.references, i < block ∧ i ∉ used := by
  cases o with
  | reference i => simp [fault?, references]
  | comparison t => cases h : readComparison t <;> simp [fault?, references, h]

theorem faultAmong_eq_none_iff {block : Nat} {used : List Nat} {os : List Operand} :
    faultAmong block used os = none ↔
      (∀ t, .comparison t ∈ os → ∃ c, readComparison t = .ok c) ∧
        (∀ i ∈ os.flatMap Operand.references, i < block ∧ i ∉ used) ∧
          (os.flatMap Operand.references).Nodup := by
  induction os generalizing used with
  | nil => simp [faultAmong]
  | cons o os ih =>
    have ho : o.references.Nodup := by cases o <;> simp [Operand.references]
    rw [faultAmong, Option.or_eq_none_iff, Operand.fault?_eq_none_iff, ih, List.flatMap_cons,
      List.nodup_append']
    constructor
    · rintro ⟨⟨h₁, h₂⟩, h₃, h₄, h₅⟩
      refine ⟨fun t ht => ?_, fun i hi => ?_, ho, h₅, fun i hi hi' => ?_⟩
      · rcases List.mem_cons.1 ht with rfl | ht
        · exact h₁ t rfl
        · exact h₃ t ht
      · rcases List.mem_append.1 hi with hi | hi
        · exact h₂ i hi
        · exact ⟨(h₄ i hi).1, fun hu => (h₄ i hi).2 (List.mem_append_left _ hu)⟩
      · exact (h₄ i hi').2 (List.mem_append_right _ hi)
    · rintro ⟨h₁, h₂, -, h₄, h₅⟩
      refine ⟨⟨fun t ht => h₁ t (by simp [ht]), fun i hi => h₂ i (by simp [hi])⟩,
        fun t ht => h₁ t (by simp [ht]), fun i hi => ⟨(h₂ i (by simp [hi])).1, fun hu => ?_⟩, h₄⟩
      rcases List.mem_append.1 hu with hu | hu
      · exact (h₂ i (by simp [hi])).2 hu
      · exact h₅ hu hi

theorem nodup_append_of_faultAmong {block : Nat} {used : List Nat} {os : List Operand}
    (hused : used.Nodup) (h : faultAmong block used os = none) :
    (used ++ os.flatMap Operand.references).Nodup := by
  obtain ⟨-, hos, hnodup⟩ := faultAmong_eq_none_iff.1 h
  exact List.nodup_append'.2 ⟨hused, hnodup, fun i hu hi => (hos i hi).2 hu⟩

/-- All comparisons are readable, and every reference is to an earlier block that
    no other reference is to. -/
structure Sound (block : Nat) (used : List Nat) (oss : List (List Operand)) : Prop where
  readable : ∀ t, .comparison t ∈ oss.flatten → ∃ c, readComparison t = .ok c
  earlier : ∀ x ∈ oss.zipIdx block, ∀ i ∈ x.1.flatMap Operand.references, i < x.2
  once : (used ++ oss.flatten.flatMap Operand.references).Nodup

theorem sound_cons_iff {block : Nat} {used : List Nat} {os : List Operand}
    {oss : List (List Operand)} : Sound block used (os :: oss) ↔
      faultAmong block used os = none ∧
        Sound (block + 1) (used ++ os.flatMap Operand.references) oss := by
  rw [faultAmong_eq_none_iff]
  constructor
  · rintro ⟨h₁, h₂, h₃⟩
    rw [List.flatten_cons] at h₁ h₃
    rw [List.flatMap_append, ← List.append_assoc] at h₃
    obtain ⟨-, hos, hdis⟩ := List.nodup_append'.1 (List.nodup_append'.1 h₃).1
    refine ⟨⟨fun t ht => h₁ t (by simp [ht]), fun i hi => ⟨h₂ (os, block) (by simp) i hi, ?_⟩,
      hos⟩, fun t ht => h₁ t (List.mem_append_right _ ht), fun x hx => h₂ x (by simp [hx]), h₃⟩
    exact fun hu => hdis hu hi
  · rintro ⟨⟨h₁, h₂, -⟩, h₄, h₅, h₆⟩
    refine ⟨fun t ht => ?_, fun x hx i hi => ?_, by simpa using h₆⟩
    · rw [List.flatten_cons, List.mem_append] at ht
      exact ht.elim (h₁ t) (h₄ t)
    · rw [List.zipIdx_cons, List.mem_cons] at hx
      rcases hx with rfl | hx
      · exact (h₂ i hi).1
      · exact h₅ x hx i hi

theorem sound_nil_iff {block : Nat} {used : List Nat} : Sound block used [] ↔ used.Nodup := by
  constructor
  · intro h
    simpa using h.once
  · intro h
    exact ⟨by simp, by simp, by simpa using h⟩

theorem sound_concat_iff {block : Nat} {used : List Nat} {os : List Operand}
    {oss : List (List Operand)} : Sound block used (oss ++ [os]) ↔
      Sound block used oss ∧ faultAmong (block + oss.length)
        (used ++ oss.flatten.flatMap Operand.references) os = none := by
  induction oss generalizing block used with
  | nil =>
    simp only [List.nil_append, sound_cons_iff, sound_nil_iff, List.length_nil, Nat.add_zero,
      List.flatten_nil, List.flatMap_nil, List.append_nil]
    constructor
    · rintro ⟨hos, hnodup⟩
      exact ⟨(List.nodup_append'.1 hnodup).1, hos⟩
    · rintro ⟨hused, hos⟩
      exact ⟨hos, nodup_append_of_faultAmong hused hos⟩
  | cons os' oss ih =>
    have hlen : block + (oss.length + 1) = block + 1 + oss.length := by omega
    rw [List.cons_append, sound_cons_iff, sound_cons_iff, ih, and_assoc, List.length_cons, hlen,
      List.flatten_cons, List.flatMap_append, ← List.append_assoc]

/-- The number of comparisons in the blocks. -/
def comparisonTotal (oss : List (List Operand)) : Nat := oss.flatten.countP Operand.isComparison

theorem comparisonTotal_cons (os : List Operand) (oss : List (List Operand)) :
    comparisonTotal (os :: oss) = os.countP Operand.isComparison + comparisonTotal oss := by
  simp [comparisonTotal]

theorem comparisonTotal_concat (os : List Operand) (oss : List (List Operand)) :
    comparisonTotal (oss ++ [os]) = comparisonTotal oss + os.countP Operand.isComparison := by
  simp [comparisonTotal]

/-- **Nothing but the number of comparisons can be wrong with sound blocks.** -/
theorem faultOf_of_sound {block : Nat} {used : List Nat} {count : Nat} {oss : List (List Operand)}
    (h : Sound block used oss) (hcount : count ≤ maxComparisons) :
    faultOf block used count oss =
      if count + comparisonTotal oss ≤ maxComparisons then none
      else some (.tooManyComparisons maxComparisons) := by
  induction oss generalizing block used count with
  | nil => simp [faultOf, comparisonTotal, hcount]
  | cons os oss ih =>
    obtain ⟨h₁, h₂⟩ := sound_cons_iff.1 h
    rw [faultOf, h₁, Option.none_or, comparisonTotal_cons, ← Nat.add_assoc]
    by_cases hc : maxComparisons < count + os.countP Operand.isComparison
    · rw [if_pos hc, if_neg (by omega)]
    · rw [if_neg hc, ih h₂ (by omega)]

/-- **The blocks without faults.** -/
theorem faultOf_eq_none_iff {block : Nat} {used : List Nat} {count : Nat}
    {oss : List (List Operand)} (hused : used.Nodup) (hcount : count ≤ maxComparisons) :
    faultOf block used count oss = none ↔
      Sound block used oss ∧ count + comparisonTotal oss ≤ maxComparisons := by
  induction oss generalizing block used count with
  | nil =>
    refine ⟨fun _ => ⟨⟨by simp, by simp, by simpa using hused⟩, by simpa [comparisonTotal]⟩,
      fun _ => rfl⟩
  | cons os oss ih =>
    rw [faultOf, sound_cons_iff, comparisonTotal_cons, ← Nat.add_assoc]
    by_cases hc : maxComparisons < count + os.countP Operand.isComparison
    · rw [if_pos hc]
      refine ⟨by simp, fun h => ?_⟩
      omega
    rw [if_neg hc, Option.or_eq_none_iff, and_assoc]
    exact and_congr_right fun hf => ih (nodup_append_of_faultAmong hused hf) (by omega)

/-! ## The first fault -/

/-- The splittings of a list at an element: at the head, or at one in the tail. -/
theorem exists_cons_eq_append_cons {α : Type} {a : α} {l : List α}
    {P : List α → α → List α → Prop} :
    (∃ l₁ x l₂, a :: l = l₁ ++ x :: l₂ ∧ P l₁ x l₂) ↔
      P [] a l ∨ ∃ l₁ x l₂, l = l₁ ++ x :: l₂ ∧ P (a :: l₁) x l₂ := by
  constructor
  · rintro ⟨l₁, x, l₂, h, hP⟩
    cases l₁ with
    | nil =>
      cases h
      exact Or.inl hP
    | cons b l₁ =>
      cases h
      exact Or.inr ⟨l₁, x, l₂, rfl, hP⟩
  · rintro (hP | ⟨l₁, x, l₂, rfl, hP⟩)
    · exact ⟨[], a, l, rfl, hP⟩
    · exact ⟨a :: l₁, x, l₂, rfl, hP⟩

theorem Operand.fault?_eq_unresolved_iff {block b j : Nat} {used : List Nat} {o : Operand} :
    o.fault? block used = some (.unresolvedReference b j) ↔
      o = .reference j ∧ b = block ∧ (j < block → j ∈ used) := by
  cases o with
  | reference i =>
    rw [fault?, reference.injEq]
    constructor
    · intro h
      split_ifs at h with hi
      cases h
      exact ⟨rfl, rfl, by simpa using hi⟩
    · rintro ⟨rfl, rfl, hi⟩
      exact if_neg (by simpa using hi)
  | comparison t => cases h : readComparison t <;> simp [fault?, h]

theorem Operand.fault?_eq_invalid_iff {block : Nat} {used : List Nat} {o : Operand} {t : Text}
    {fault : Fault} : o.fault? block used = some (.invalidComparison t fault) ↔
      o = .comparison t ∧ readComparison t = .error fault := by
  cases o with
  | reference i => simp [fault?]
  | comparison s =>
    rw [fault?, comparison.injEq]
    constructor
    · intro h
      split at h
      · cases h
      · next fault' hread =>
        cases h
        exact ⟨rfl, hread⟩
    · rintro ⟨rfl, hread⟩
      rw [hread]

theorem faultAmong_eq_some_iff {block : Nat} {used : List Nat} {os : List Operand} {e : Error} :
    faultAmong block used os = some e ↔
      ∃ os₁ o os₂, os = os₁ ++ o :: os₂ ∧ faultAmong block used os₁ = none ∧
        o.fault? block (used ++ os₁.flatMap Operand.references) = some e := by
  induction os generalizing used with
  | nil => simp [faultAmong]
  | cons o os ih =>
    rw [faultAmong, Option.or_eq_some_iff, ih, exists_cons_eq_append_cons]
    refine or_congr (by simp [faultAmong]) ?_
    simp only [faultAmong, Option.or_eq_none_iff, List.flatMap_cons, List.append_assoc, and_assoc]
    constructor
    · rintro ⟨ho, os₁, o', os₂, h, h', he⟩
      exact ⟨os₁, o', os₂, h, ho, h', he⟩
    · rintro ⟨os₁, o', os₂, h, ho, h', he⟩
      exact ⟨ho, os₁, o', os₂, h, h', he⟩

theorem faultOf_cons {block : Nat} {used : List Nat} {count : Nat} (os : List Operand)
    (oss : List (List Operand)) :
    faultOf block used count (os :: oss) = (faultOf block used count [os]).or
      (faultOf (block + 1) (used ++ os.flatMap Operand.references)
        (count + os.countP Operand.isComparison) oss) := by
  simp only [faultOf, Option.or_none]
  split_ifs <;> rfl

/-- The first fault is one of a block before which there is none. -/
theorem faultOf_eq_some_iff {block : Nat} {used : List Nat} {count : Nat}
    {oss : List (List Operand)} {e : Error} :
    faultOf block used count oss = some e ↔
      ∃ before os after, oss = before ++ os :: after ∧ faultOf block used count before = none ∧
        faultOf (block + before.length) (used ++ before.flatten.flatMap Operand.references)
          (count + comparisonTotal before) [os] = some e := by
  induction oss generalizing block used count with
  | nil => simp [faultOf]
  | cons os oss ih =>
    rw [faultOf_cons, Option.or_eq_some_iff, ih, exists_cons_eq_append_cons]
    refine or_congr (by simp [faultOf, comparisonTotal]) ?_
    have hlen (n : Nat) : block + (n + 1) = block + 1 + n := by omega
    constructor
    · rintro ⟨hos, before, os', after, h, h', he⟩
      refine ⟨before, os', after, h, by rw [faultOf_cons, hos, h']; rfl, ?_⟩
      rwa [List.length_cons, hlen, List.flatten_cons, List.flatMap_append, ← List.append_assoc,
        comparisonTotal_cons, ← Nat.add_assoc]
    · rintro ⟨before, os', after, h, h', he⟩
      rw [faultOf_cons, Option.or_eq_none_iff] at h'
      refine ⟨h'.1, before, os', after, h, h'.2, ?_⟩
      rwa [List.length_cons, hlen, List.flatten_cons, List.flatMap_append, ← List.append_assoc,
        comparisonTotal_cons, ← Nat.add_assoc] at he

/-- **When an operand is the first fault**: all before it is sound and its block is
    still within the limit. -/
theorem faultOf_eq_fault_iff {block : Nat} {used : List Nat} {count : Nat}
    {oss : List (List Operand)} {e : Error} (hused : used.Nodup) (hcount : count ≤ maxComparisons)
    (he : e ≠ .tooManyComparisons maxComparisons) :
    faultOf block used count oss = some e ↔
      ∃ before os₁ o os₂ after, oss = before ++ (os₁ ++ o :: os₂) :: after ∧
        Sound block used (before ++ [os₁]) ∧
        count + comparisonTotal (before ++ [os₁ ++ o :: os₂]) ≤ maxComparisons ∧
        o.fault? (block + before.length)
          (used ++ (before ++ [os₁]).flatten.flatMap Operand.references) = some e := by
  have hreferences (before : List (List Operand)) (os₁ : List Operand) :
      used ++ (before ++ [os₁]).flatten.flatMap Operand.references =
        used ++ before.flatten.flatMap Operand.references ++ os₁.flatMap Operand.references := by
    simp
  rw [faultOf_eq_some_iff]
  constructor
  · rintro ⟨before, os, after, rfl, hnone, hf⟩
    obtain ⟨hsound, hle⟩ := (faultOf_eq_none_iff hused hcount).1 hnone
    rw [faultOf] at hf
    split_ifs at hf with hc
    · exact absurd (Option.some.inj hf).symm he
    rw [faultOf, Option.or_none] at hf
    obtain ⟨os₁, o, os₂, rfl, h₁, ho⟩ := faultAmong_eq_some_iff.1 hf
    refine ⟨before, os₁, o, os₂, after, rfl, sound_concat_iff.2 ⟨hsound, h₁⟩, ?_, ?_⟩
    · rw [comparisonTotal_concat]
      omega
    · rw [hreferences]
      exact ho
  · rintro ⟨before, os₁, o, os₂, after, rfl, hs, hle, ho⟩
    obtain ⟨hsound, h₁⟩ := sound_concat_iff.1 hs
    rw [comparisonTotal_concat] at hle
    refine ⟨before, _, after, rfl, (faultOf_eq_none_iff hused hcount).2 ⟨hsound, by omega⟩, ?_⟩
    rw [faultOf, if_neg (by omega), faultOf, Option.or_none]
    rw [hreferences] at ho
    exact faultAmong_eq_some_iff.2 ⟨os₁, o, os₂, rfl, h₁, ho⟩

/-- **When a reference is the first fault**: it is to no earlier block or to one
    referred to before. -/
theorem faultOf_eq_unresolved_iff {block b j : Nat} {used : List Nat} {count : Nat}
    {oss : List (List Operand)} (hused : used.Nodup) (hcount : count ≤ maxComparisons) :
    faultOf block used count oss = some (.unresolvedReference b j) ↔
      ∃ before os₁ os₂ after, oss = before ++ (os₁ ++ .reference j :: os₂) :: after ∧
        b = block + before.length ∧ Sound block used (before ++ [os₁]) ∧
        count + comparisonTotal (before ++ [os₁ ++ .reference j :: os₂]) ≤ maxComparisons ∧
        (j < b → j ∈ used ++ (before ++ [os₁]).flatten.flatMap Operand.references) := by
  rw [faultOf_eq_fault_iff hused hcount (by nofun)]
  constructor
  · rintro ⟨before, os₁, o, os₂, after, rfl, hs, hle, ho⟩
    obtain ⟨rfl, rfl, hj⟩ := Operand.fault?_eq_unresolved_iff.1 ho
    exact ⟨before, os₁, os₂, after, rfl, rfl, hs, hle, hj⟩
  · rintro ⟨before, os₁, os₂, after, rfl, rfl, hs, hle, hj⟩
    exact ⟨before, os₁, _, os₂, after, rfl, hs, hle,
      Operand.fault?_eq_unresolved_iff.2 ⟨rfl, rfl, hj⟩⟩

/-! ## The predicate of the blocks -/

theorem lt_of_earlier {block : Nat} {oss : List (List Operand)}
    (h : ∀ x ∈ oss.zipIdx block, ∀ i ∈ x.1.flatMap Operand.references, i < x.2) :
    ∀ i ∈ oss.flatten.flatMap Operand.references, i + 1 < block + oss.length := by
  intro i hi
  obtain ⟨o, ho, hi⟩ := List.mem_flatMap.1 hi
  obtain ⟨os, hos, ho⟩ := List.mem_flatten.1 ho
  obtain ⟨k, hk, rfl⟩ := List.mem_iff_getElem.1 hos
  have := h (oss[k], block + k) (List.mk_add_mem_zipIdx_iff_getElem?.2 (by simp [hk])) i
    (List.mem_flatMap_of_mem ho hi)
  simp only at this
  omega

/-- **Building reports the first fault or, if there is none, gives the meaning of
    the last block**, all blocks read over the meanings of all. -/
theorem build_meets {blocks : List Text} (h : blocks ≠ []) :
    Meets (faultOf 0 [] 0 (operandsOf blocks)) (build blocks)
      fun p => ∃ ps, List.Forall₂ (Chain.Means ps) (blocks.map Chain.ofText) ps ∧
        ps.getLast? = some p := by
  have hall := buildAll_meets blocks [] [] 0 (by simp)
  rw [build]
  cases hf : faultOf 0 [] 0 (operandsOf blocks) with
  | some e =>
    rw [List.length_nil, hf] at hall
    have hall' : buildAll [] 0 blocks = .error e := hall
    rw [hall']
    rfl
  | none =>
    rw [List.length_nil, hf] at hall
    obtain ⟨s, hs, ps, hps, rfl⟩ := hall
    rw [List.nil_append] at hps
    have hlen : ps.length = blocks.length := by rw [← hps.length_eq, List.length_map]
    have hne : ps ≠ [] := by
      rintro rfl
      exact h (List.length_eq_zero_iff.1 hlen.symm)
    obtain ⟨hsound, -⟩ := (faultOf_eq_none_iff List.nodup_nil (Nat.zero_le _)).1 hf
    -- no reference is to the last block, so its result is still in the table
    have hnot : ps.length - 1 ∉ (operandsOf blocks).flatten.flatMap Operand.references := by
      intro hi
      have := lt_of_earlier hsound.earlier _ hi
      simp only [operandsOf, List.length_map] at this
      omega
    refine ⟨ps.getLast hne, ?_, ps, hps, List.getLast?_eq_getLast_of_ne_nil hne⟩
    have hs' : buildAll [] 0 blocks = .ok _ := hs
    rw [hs', List.nil_append, List.nil_append]
    simp only [bind, Except.bind, getLast?_slotsOf hne hnot]

theorem build_eq_error_iff {blocks : List Text} {e : Error} (h : blocks ≠ []) :
    build blocks = .error e ↔ faultOf 0 [] 0 (operandsOf blocks) = some e := by
  have hb := build_meets h
  cases hf : faultOf 0 [] 0 (operandsOf blocks) with
  | some e' =>
    rw [hf] at hb
    rw [show build blocks = .error e' from hb, Option.some.injEq, Except.error.injEq]
  | none =>
    rw [hf] at hb
    obtain ⟨p, hp, -⟩ := hb
    simp [hp]

/-- What is built comes from sound blocks, not too many comparisons, and is what
    the last block means. -/
theorem means_of_build {blocks : List Text} {p : Predicate} (h : blocks ≠ [])
    (hp : build blocks = .ok p) :
    Sound 0 [] (operandsOf blocks) ∧ comparisonTotal (operandsOf blocks) ≤ maxComparisons ∧
      ∃ ps, List.Forall₂ (Chain.Means ps) (blocks.map Chain.ofText) ps ∧ ps.getLast? = some p := by
  have hb := build_meets h
  cases hf : faultOf 0 [] 0 (operandsOf blocks) with
  | some e =>
    rw [hf, Meets, hp] at hb
    cases hb
  | none =>
    obtain ⟨hsound, hle⟩ := (faultOf_eq_none_iff List.nodup_nil (Nat.zero_le _)).1 hf
    rw [hf, Meets, hp] at hb
    obtain ⟨p', hp', ps, hps, hlast⟩ := hb
    cases hp'
    rw [Nat.zero_add] at hle
    exact ⟨hsound, hle, ps, hps, hlast⟩

end Query

end RecordFilter
