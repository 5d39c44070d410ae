/-
  Proofs.Construction — predicates built step by step.

  A caller tests attributes, reads and compiles texts, and joins and copies the
  predicates that it holds.  Whatever it does, every comparison has as many operands as
  its operator takes.  Nobody who takes operands out of such a comparison misses one.

  * `Move`: a step of a caller, and `Move.run`: what it holds after some steps;
  * `saturated_run`: the invariant of all that is held;
  * `Comparison.text?`, `Comparison.values?`, `Comparison.selects?`: a comparison
    written, rendered and tested with its operands taken out one by one, and nothing if
    one is missing or if the operands do not suit the operator;
  * `operands_of_mem_run`: what is held is written, rendered and tested in full.
-/
import RecordFilter.Proofs.Evaluation
import RecordFilter.Proofs.Results
import RecordFilter.Proofs.Store
import RecordFilter.Query.Compile

namespace RecordFilter

/-! ## Saturated predicates -/

namespace Predicate

theorem saturated_leaf {c : Comparison} :
    (leaf c).Saturated ↔ c.operands.length = c.operator.arity := by
  simp [Saturated, comparisons]

theorem saturated_join {l r : Predicate} {c : Combinator} :
    (join l c r).Saturated ↔ l.Saturated ∧ r.Saturated := by
  simp [Saturated, comparisons, or_imp, forall_and]

theorem saturated_of? {name : Text} {op : Operator} {operands : List Text} {p : Predicate}
    (h : of? name op operands = some p) : p.Saturated := by
  unfold of? Comparison.of? at h
  split_ifs at h with hlen
  · cases h
    exact saturated_leaf.2 hlen
  · cases h

end Predicate

namespace Query

theorem saturated_of_readComparison {t : Text} {c : Comparison} (h : readComparison t = .ok c) :
    (Predicate.leaf c).Saturated := by
  obtain ⟨-, -, -, -, -, -, -, -, -, hlen⟩ := exists_parts_of_readComparison h
  exact Predicate.saturated_leaf.2 hlen

/-- Whatever is still in its slot is saturated. -/
def Slots.Saturated (slots : Slots) : Prop := ∀ p, some p ∈ slots → p.Saturated

section
variable {slots slots' : Slots} (hs : slots.Saturated) {p : Predicate}
include hs

theorem saturated_of_take? {i : Nat} (h : slots.take? i = some (p, slots')) :
    p.Saturated ∧ slots'.Saturated := by
  unfold Slots.take? at h
  split at h
  · next q hq =>
    cases h
    refine ⟨hs p (List.mem_of_getElem? hq), fun q hmem => ?_⟩
    rcases List.mem_or_eq_of_mem_set hmem with hmem | heq
    · exact hs q hmem
    · cases heq
  · cases h

theorem saturated_of_resolve {o : Operand} (h : resolve slots o = .ok (p, slots')) :
    p.Saturated ∧ slots'.Saturated := by
  cases o with
  | reference i =>
    rw [resolve] at h
    split at h
    · next r hr =>
      cases h
      exact saturated_of_take? hs hr
    · cases h
  | comparison t =>
    rw [resolve] at h
    split at h
    · next c hc =>
      cases h
      exact ⟨saturated_of_readComparison hc, hs⟩
    · cases h

theorem saturated_of_joinAll {left : Predicate} (hleft : left.Saturated)
    {rest : List (Combinator × Operand)} (h : joinAll slots left rest = .ok (p, slots')) :
    p.Saturated ∧ slots'.Saturated := by
  induction rest generalizing slots left with
  | nil =>
    cases h
    exact ⟨hleft, hs⟩
  | cons x rest ih =>
    obtain ⟨⟨right, slots₁⟩, hx, hrest⟩ := bind_eq_ok_iff.1 h
    obtain ⟨hright, hs₁⟩ := saturated_of_resolve hs hx
    exact ih hs₁ (Predicate.saturated_join.2 ⟨hleft, hright⟩) hrest

theorem Chain.saturated_of_build {c : Chain} (h : c.build slots = .ok (p, slots')) :
    p.Saturated ∧ slots'.Saturated := by
  obtain ⟨⟨first, slots₁⟩, hfirst, hrest⟩ := bind_eq_ok_iff.1 h
  obtain ⟨hp, hs₁⟩ := saturated_of_resolve hs hfirst
  exact saturated_of_joinAll hs₁ hp hrest

/-- The loop over the blocks keeps the slots saturated. -/
theorem saturated_of_buildAll {used : Nat} {blocks : List Text}
    (h : buildAll slots used blocks = .ok slots') : slots'.Saturated := by
  induction blocks generalizing slots used with
  | nil =>
    cases h
    exact hs
  | cons block blocks ih =>
    simp only [buildAll] at h
    split_ifs at h
    · cases h
    obtain ⟨⟨q, slots₁⟩, hq, hrest⟩ := bind_eq_ok_iff.1 h
    obtain ⟨hq, hs₁⟩ := Chain.saturated_of_build hs hq
    refine ih (fun p hp => ?_) hrest
    rcases List.mem_append.1 hp with hp | hp
    · exact hs₁ p hp
    · cases List.mem_singleton.1 hp
      exact hq

end

theorem saturated_of_build {blocks : List Text} {p : Predicate} (h : build blocks = .ok p) :
    p.Saturated := by
  obtain ⟨slots, hslots, hlast⟩ := bind_eq_ok_iff.1 h
  have hs : slots.Saturated := saturated_of_buildAll (fun q hq => by cases hq) hslots
  split at hlast
  · next q hq =>
    cases hlast
    exact hs p (List.mem_of_getLast? hq)
  · cases hlast

theorem saturated_of_compile {q : Text} {p : Predicate} (h : compile q = .ok p) :
    p.Saturated := by
  obtain ⟨blocks, -, hbuild⟩ := bind_eq_ok_iff.1 h
  exact saturated_of_build hbuild

end Query

/-! ## Callers -/

/-- The tests of an attribute that have a name of their own. -/
inductive AttributeTest where
  | equal (value : Text)
  | notEqual (value : Text)
  | atMost (value : Text)
  | atLeast (value : Text)
  | before (value : Text)
  | after (value : Text)
  | between (low high : Text)
  | begins (value : Text)
  | contains (value : Text)
  | isFalse
  | isTrue
  deriving DecidableEq, Repr

/-- The test of the attribute with the given name. -/
def AttributeTest.on (name : Text) : AttributeTest → Predicate
  | equal v => .equal name v
  | notEqual v => .notEqual name v
  | atMost v => .atMost name v
  | atLeast v => .atLeast name v
  | before v => .before name v
  | after v => .after name v
  | between low high => .between name low high
  | begins v => .begins name v
  | contains v => .contains name v
  | isFalse => .isFalse name
  | isTrue => .isTrue name

theorem AttributeTest.saturated_on (name : Text) (t : AttributeTest) : (t.on name).Saturated := by
  cases t <;> exact Predicate.saturated_leaf.2 rfl

/-- A step of a caller that holds predicates, the newest first. -/
inductive Move where
  | test (name : Text) (t : AttributeTest)
  /-- Tests an attribute by any operator, if it takes that many operands. -/
  | apply (name : Text) (op : Operator) (operands : List Text)
  | read (t : Text)
  | build (blocks : List Text)
  | compile (query : Text)
  /-- Gives away predicate `i`, and `j` of the others, for their join. -/
  | join (i : Nat) (c : Combinator) (j : Nat)
  | copy (i : Nat)
  | forget (i : Nat)
  deriving DecidableEq, Repr

namespace Move

/-- What a caller holds after a step.  A step that fails leaves it with what it had. -/
def step (held : List Predicate) : Move → List Predicate
  | test name t => t.on name :: held
  | apply name op operands => (Predicate.of? name op operands).toList ++ held
  | read t => ((Query.readComparison t).toOption.map .leaf).toList ++ held
  | build blocks => (Query.build blocks).toOption.toList ++ held
  | compile query => (Query.compile query).toOption.toList ++ held
  | join i c j =>
    match held[i]?, (held.eraseIdx i)[j]? with
    | some l, some r => .join l c r :: (held.eraseIdx i).eraseIdx j
    | _, _ => held
  | copy i => held[i]?.toList ++ held
  | forget i => held.eraseIdx i

/-- What a caller holds after some steps from nothing. -/
def run (moves : List Move) : List Predicate := moves.foldl step []

theorem saturated_step {held : List Predicate} (h : ∀ p ∈ held, p.Saturated) (m : Move) :
    ∀ p ∈ step held m, p.Saturated := by
  -- a new predicate comes in front of those held
  have hnew {new : Option Predicate} (hp : ∀ p, new = some p → p.Saturated) :
      ∀ p ∈ new.toList ++ held, p.Saturated := by
    intro p hmem
    rcases List.mem_append.1 hmem with hmem | hmem
    · exact hp p (Option.mem_toList.1 hmem)
    · exact h p hmem
  cases m with
  | test name t => exact List.forall_mem_cons.2 ⟨t.saturated_on name, h⟩
  | apply name op operands => exact hnew fun p hp => Predicate.saturated_of? hp
  | read t =>
    refine hnew fun p hp => ?_
    obtain ⟨c, hc, rfl⟩ := Option.map_eq_some_iff.1 hp
    exact Query.saturated_of_readComparison (eq_ok_of_toOption hc)
  | build blocks =>
    exact hnew fun p hp => Query.saturated_of_build (eq_ok_of_toOption hp)
  | compile query =>
    exact hnew fun p hp => Query.saturated_of_compile (eq_ok_of_toOption hp)
  | join i c j =>
    rw [step]
    split
    · next l r hl hr =>
      have hothers : ∀ p ∈ held.eraseIdx i, p.Saturated := fun p hp =>
        h p (List.mem_of_mem_eraseIdx hp)
      refine List.forall_mem_cons.2 ⟨Predicate.saturated_join.2 ⟨?_, ?_⟩, fun p hp => ?_⟩
      · exact h l (List.mem_of_getElem? hl)
      · exact hothers r (List.mem_of_getElem? hr)
      · exact hothers p (List.mem_of_mem_eraseIdx hp)
    · exact h
  | copy i => exact hnew fun p hp => h p (List.mem_of_getElem? hp)
  | forget i => exact fun p hp => h p (List.mem_of_mem_eraseIdx hp)

/-- **All that a caller ever holds is saturated.** -/
theorem saturated_run (moves : List Move) : ∀ p ∈ run moves, p.Saturated := by
  have key (held : List Predicate) (h : ∀ p ∈ held, p.Saturated) :
      ∀ p ∈ moves.foldl step held, p.Saturated := by
    induction moves generalizing held with
    | nil => exact h
    | cons m moves ih => exact ih (step held m) (saturated_step h m)
  exact key [] (by simp)

end Move

/-! ## Taking operands out -/

namespace Comparison

/-- A comparison in words.  Two operands are written with `BETWEEN` only, one with every
    operator, and any number with a flag check. -/
def text? (c : Comparison) : Option Text :=
  match c.operator, c.operands with
  | .isTrue, _ => some (c.name ++ ' ' :: "== true".toList)
  | .isFalse, _ => some (c.name ++ ' ' :: "== false".toList)
  | .between, [low, high] =>
    some (c.name ++ ' ' :: Operator.between.token ++ ' ' :: quoted low ++ " AND ".toList ++
      quoted high)
  | op, [v] => some (c.name ++ ' ' :: op.token ++ ' ' :: quoted v)
  | _, _ => none

/-- The values of a comparison: the truth value of a flag, or the first operand or the
    first two. -/
def values? (c : Comparison) : Option (List AttributeValue) :=
  match c.operator with
  | .isTrue => some [.flag true]
  | .isFalse => some [.flag false]
  | .between => do return [.text (← c.operands[0]?), .text (← c.operands[1]?)]
  | _ => do return [.text (← c.operands[0]?)]

end Comparison

/-- Whether a comparison by `op` with the given operands holds of a text.  Two operands
    are compared by `BETWEEN`, one by the other operators on texts. -/
def Operator.compares? (op : Operator) (operands : List Text) (t : Text) : Option Bool :=
  match op, operands with
  | .equal, [v] => some (t == v)
  | .before, [v] => some (t.precedes v)
  | .atMost, [v] => some (!v.precedes t)
  | .after, [v] => some (v.precedes t)
  | .atLeast, [v] => some (!t.precedes v)
  | .begins, [v] => some (v.isPrefixOf t)
  | .between, [low, high] => some (!t.precedes low && !high.precedes t)
  | _, _ => none

/-- Whether a comparison selects a record. -/
def Comparison.selects? (c : Comparison) (record : Json) : Option Bool :=
  let field := record.field? c.name
  match c.operator with
  | .isTrue => some (field.bind Json.bool? == some true)
  | .isFalse => some (field.bind Json.bool? == some false)
  | .notEqual => do
    let v ← c.operands[0]?
    return field.bind Json.string? != some v
  | .contains => do
    let v ← c.operands[0]?
    match field with
    | some (.string t) => return Text.occursIn v t
    | some (.array vs) => return vs.any (·.string? == some v)
    | _ => return false
  | op =>
    match field.bind Json.string? with
    | some t => op.compares? c.operands t
    | none => some false

section
variable {c : Comparison} (h : c.operands.length = c.operator.arity)
include h

theorem Comparison.text?_eq : c.text? = some c.text := by
  obtain ⟨name, op, operands⟩ := c
  cases op
  case between =>
    obtain ⟨low, high, rfl⟩ := List.length_eq_two.1 h
    simp [text?, text, condition, Text.join]
  case isFalse | isTrue => rfl
  all_goals
    obtain ⟨v, rfl⟩ := List.length_eq_one_iff.1 h
    simp [text?, text, condition, Text.join]

theorem Comparison.values?_eq : c.values? = some c.values := by
  obtain ⟨name, op, operands⟩ := c
  cases op
  case between =>
    obtain ⟨low, high, rfl⟩ := List.length_eq_two.1 h
    rfl
  case isFalse | isTrue => rfl
  all_goals
    obtain ⟨v, rfl⟩ := List.length_eq_one_iff.1 h
    rfl

theorem Comparison.selects?_eq (record : Json) : c.selects? record = some (c.selects record) := by
  obtain ⟨name, op, operands⟩ := c
  cases op
  case between =>
    obtain ⟨low, high, rfl⟩ := List.length_eq_two.1 h
    simp only [selects?, selects]
    cases (record.field? name).bind Json.string? <;> rfl
  case isFalse | isTrue => rfl
  all_goals obtain ⟨v, rfl⟩ := List.length_eq_one_iff.1 h
  case notEqual => rfl
  case contains =>
    simp only [selects?, selects]
    rcases record.field? name with _ | _ | _ | _ | _ | _ | _ <;> rfl
  all_goals
    simp only [selects?, selects]
    cases (record.field? name).bind Json.string? <;> rfl

end

namespace Predicate

/-- The written form of a predicate. -/
def text? : Predicate → Option Text
  | leaf c => c.text?
  | join l c r => do
    let left ← l.text?
    let right ← r.text?
    return '(' :: left ++ ' ' :: c.keyword ++ ' ' :: right ++ [')']

/-- The values of all comparisons, in reading order. -/
def values? (p : Predicate) : Option (List AttributeValue) :=
  (p.comparisons.mapM Comparison.values?).map List.flatten

/-- Whether a predicate selects a record.  A right-hand side that cannot change the
    answer is not looked at. -/
def selects? (record : Json) : Predicate → Option Bool
  | leaf c => c.selects? record
  | join l .and r => do if ← l.selects? record then r.selects? record else return false
  | join l .or r => do if ← l.selects? record then return true else r.selects? record

end Predicate

/-- The filter expression of a predicate. -/
def Expression.ofPredicate? (p : Predicate) : Option Expression :=
  p.values?.map fun vs => ⟨write p.names 0 p [], p.names, vs⟩

namespace Predicate
variable {p : Predicate}

theorem text?_eq (h : p.Saturated) : p.text? = some p.text := by
  induction p with
  | leaf c =>
    rw [text?, Comparison.text?_eq (saturated_leaf.1 h)]
    simp [text, write]
  | join l c r ihl ihr =>
    obtain ⟨hl, hr⟩ := saturated_join.1 h
    rw [text?, ihl hl, ihr hr, text_join]
    rfl

theorem values?_eq (h : p.Saturated) : p.values? = some p.values := by
  have key (cs : List Comparison) (hcs : ∀ c ∈ cs, c.operands.length = c.operator.arity) :
      cs.mapM Comparison.values? = some (cs.map Comparison.values) := by
    induction cs with
    | nil => rfl
    | cons c cs ih =>
      obtain ⟨hc, hcs⟩ := List.forall_mem_cons.1 hcs
      rw [List.mapM_cons, Comparison.values?_eq hc, ih hcs]
      rfl
  rw [values?, key _ h, values, List.flatMap_def]
  rfl

theorem selects?_eq (h : p.Saturated) (record : Json) :
    p.selects? record = some (p.selects record) := by
  rw [selects_eq_holds]
  induction p with
  | leaf c => exact Comparison.selects?_eq (saturated_leaf.1 h) record
  | join l c r ihl ihr =>
    obtain ⟨hl, hr⟩ := saturated_join.1 h
    cases c <;> rw [selects?, ihl hl, ihr hr, holds] <;> cases l.holds record <;> rfl

end Predicate

/-- **No operand is ever missing.**  Every comparison of every predicate that a caller
    holds has as many operands as its operator takes, so the predicate is written,
    rendered and tested without asking for an operand that is not there. -/
theorem operands_of_mem_run (moves : List Move) (p : Predicate) (hp : p ∈ Move.run moves) :
    (∀ c ∈ p.comparisons, c.operands.length = c.operator.arity) ∧
      p.text? = some p.text ∧ Expression.ofPredicate? p = some (.ofPredicate p) ∧
      ∀ record, p.selects? record = some (p.selects record) := by
  have h : p.Saturated := Move.saturated_run moves p hp
  refine ⟨h, Predicate.text?_eq h, ?_, Predicate.selects?_eq h⟩
  rw [Expression.ofPredicate?, Predicate.values?_eq h]
  rfl

/-- Steps of which two are refused. -/
def mixedMoves : List Move := [
  .apply "visit".toList .between ["2024".toList],
  .compile "(~aORb==\"x\")AND(visitBETWEEN\"1\"\"2\")".toList,
  .test "site".toList (.begins "n".toList),
  .read "siteCONTAINS".toList,
  .copy 1,
  .join 0 .or 0]

/-- What they leave behind. -/
def mixedPredicate : Predicate :=
  .or (.and (.or (.isFalse "a".toList) (.equal "b".toList "x".toList))
    (.between "visit".toList "1".toList "2".toList)) (.begins "site".toList "n".toList)

theorem operands_mixedMoves :
    mixedPredicate ∈ Move.run mixedMoves ∧
      (∀ c ∈ mixedPredicate.comparisons, c.operands.length = c.operator.arity) ∧
      mixedPredicate.text? = some mixedPredicate.text ∧
      Expression.ofPredicate? mixedPredicate = some (.ofPredicate mixedPredicate) ∧
      ∀ record, mixedPredicate.selects? record = some (mixedPredicate.selects record) := by
  have hmem : mixedPredicate ∈ Move.run mixedMoves := by decide +kernel
  exact ⟨hmem, operands_of_mem_run mixedMoves mixedPredicate hmem⟩

end RecordFilter
