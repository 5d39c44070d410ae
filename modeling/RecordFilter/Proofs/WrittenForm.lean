/-
  Proofs.WrittenForm — what is written of a predicate tells which one it is.

  No written form is the beginning of another one, if names and values are as they are
  read.  So the written forms show where they end, also one inside the other.

  * `Comparison.condition_eq`: a condition is a word and values in their written form;
  * `Comparison.text_append_inj`, `Predicate.Readable.text_append_inj`: what stands at the
    beginning of a text is the written form of one comparison, and of one predicate;
  * `Predicate.writeAll`: the written form in one pass, with a stack of what is pending;
  * `Predicate.text_append_eq_iff`: all of this together.
-/
import RecordFilter.Proofs.Rendering
import RecordFilter.Proofs.Resolution

namespace RecordFilter

open Store (word_append_inj)

/-! ## Values -/

/-- A value as it is written: a text in quotes, and a truth value without. -/
def AttributeValue.written : AttributeValue → Text
  | text t => quoted t
  | flag true => "true".toList
  | flag false => "false".toList

/-- There is no quote in the value. -/
def AttributeValue.QuoteFree : AttributeValue → Prop
  | text t => '"' ∉ t
  | flag _ => True

theorem quoted_append_inj {v w s s' : Text} (hv : '"' ∉ v) (hw : '"' ∉ w)
    (h : quoted v ++ s = quoted w ++ s') : v = w ∧ s = s' := by
  simp only [quoted, List.cons_append, List.append_assoc, List.nil_append, List.cons.injEq,
    true_and] at h
  exact word_append_inj hv hw h

theorem AttributeValue.written_append_inj {x y : AttributeValue} {s s' : Text}
    (hx : x.QuoteFree) (hy : y.QuoteFree) (h : x.written ++ s = y.written ++ s') :
    x = y ∧ s = s' := by
  -- the first character is a quote or tells the truth value
  cases x with
  | text v =>
    cases y with
    | text w =>
      obtain ⟨rfl, hs⟩ := quoted_append_inj hx hy h
      exact ⟨rfl, hs⟩
    | flag b => cases b <;> cases h
  | flag a =>
    cases y with
    | text w => cases a <;> cases h
    | flag b =>
      cases a <;> cases b
      · exact ⟨rfl, List.append_cancel_left h⟩
      · cases h
      · cases h
      · exact ⟨rfl, List.append_cancel_left h⟩

/-- Values as they are written, one behind the other. -/
def AttributeValue.writtenAll (vs : List AttributeValue) : Text :=
  Text.join " AND ".toList (vs.map written)

theorem AttributeValue.writtenAll_singleton (x : AttributeValue) : writtenAll [x] = x.written := by
  simp [writtenAll, Text.join]

theorem AttributeValue.writtenAll_cons_cons (x y : AttributeValue) (vs : List AttributeValue) :
    writtenAll (x :: y :: vs) = x.written ++ " AND ".toList ++ writtenAll (y :: vs) := by
  simp [writtenAll, Text.join]

/-- As many values, written at the beginning of a text, are the same values. -/
theorem AttributeValue.writtenAll_append_inj {xs ys : List AttributeValue}
    (hlen : xs.length = ys.length) (hx : ∀ x ∈ xs, x.QuoteFree) (hy : ∀ y ∈ ys, y.QuoteFree)
    {s s' : Text} (h : writtenAll xs ++ s = writtenAll ys ++ s') : xs = ys ∧ s = s' := by
  induction xs generalizing ys with
  | nil =>
    obtain rfl := List.length_eq_zero_iff.1 hlen.symm
    exact ⟨rfl, h⟩
  | cons x xs ih =>
    obtain ⟨y, ys, rfl⟩ := List.exists_cons_of_length_eq_add_one hlen.symm
    simp only [List.length_cons, Nat.add_right_cancel_iff] at hlen
    obtain ⟨hx₀, hx⟩ := List.forall_mem_cons.1 hx
    obtain ⟨hy₀, hy⟩ := List.forall_mem_cons.1 hy
    cases xs with
    | nil =>
      obtain rfl := List.length_eq_zero_iff.1 hlen.symm
      rw [writtenAll_singleton, writtenAll_singleton] at h
      obtain ⟨rfl, hs⟩ := written_append_inj hx₀ hy₀ h
      exact ⟨rfl, hs⟩
    | cons x' xs =>
      obtain ⟨y', ys, rfl⟩ := List.exists_cons_of_length_eq_add_one hlen.symm
      simp only [writtenAll_cons_cons, List.append_assoc] at h
      obtain ⟨hxy, hrest⟩ := written_append_inj hx₀ hy₀ h
      obtain ⟨hxs, hs⟩ := ih hlen hx hy (List.append_cancel_left hrest)
      exact ⟨by rw [hxy, hxs], hs⟩

/-! ## Comparisons -/

namespace Operator

/-- The word of an operator in a condition.  A flag check is written as an equality. -/
def word : Operator → Text
  | isTrue | isFalse => equal.token
  | op => op.token

theorem space_notMem_word (op : Operator) : ' ' ∉ op.word := by cases op <;> decide +kernel

/-- Only flag checks and equality have a word in common. -/
theorem eq_or_mem_of_word_eq {op op' : Operator} (h : op.word = op'.word) :
    op = op' ∨ op ∈ [equal, isTrue, isFalse] ∧ op' ∈ [equal, isTrue, isFalse] := by
  have key : ∀ op ∈ all, ∀ op' ∈ all, op.word = op'.word →
      op = op' ∨ op ∈ [equal, isTrue, isFalse] ∧ op' ∈ [equal, isTrue, isFalse] := by
    decide +kernel
  exact key op op.mem_all op' op'.mem_all h

/-- One value is written in a flag check, like in an equality. -/
theorem max_arity_eq_of_word_eq {op op' : Operator} (h : op.word = op'.word) :
    max 1 op.arity = max 1 op'.arity := by
  have hone : ∀ op ∈ [equal, isTrue, isFalse], max 1 op.arity = 1 := by decide
  rcases eq_or_mem_of_word_eq h with rfl | ⟨hop, hop'⟩
  · rfl
  · rw [hone op hop, hone op' hop']

end Operator

namespace Comparison

theorem condition_eq (c : Comparison) :
    c.condition = c.operator.word ++ ' ' :: AttributeValue.writtenAll c.values := by
  obtain ⟨name, op, operands⟩ := c
  cases op
  case isTrue | isFalse => rfl
  all_goals
    simp only [condition, values, AttributeValue.writtenAll, List.map_map]
    rfl

variable {c c' : Comparison}

theorem mem_operands_of_mem_values {t : Text} (h : .text t ∈ c.values) : t ∈ c.operands := by
  rw [values] at h
  split at h
  · simp at h
  · simp at h
  · simpa using h

theorem Spellable.quoteFree (hc : c.Spellable) : ∀ x ∈ c.values, x.QuoteFree := by
  intro x hx
  cases x with
  | text t => exact hc.quote_notMem t (mem_operands_of_mem_values hx)
  | flag b => trivial

theorem operands_eq_of_values_eq {name : Text} {op : Operator} {vs vs' : List Text}
    (hv : values ⟨name, op, vs⟩ = values ⟨name, op, vs'⟩) (h : vs.length = op.arity)
    (h' : vs'.length = op.arity) : vs = vs' := by
  cases op
  case isTrue | isFalse =>
    exact (List.length_eq_zero_iff.1 h).trans (List.length_eq_zero_iff.1 h').symm
  all_goals exact List.map_injective_iff.2 (fun _ _ => AttributeValue.text.inj) hv

theorem flag_cons_ne_map_text (b : Bool) (vs : List AttributeValue) (ts : List Text) :
    .flag b :: vs ≠ ts.map AttributeValue.text := by
  cases ts <;> simp

/-- The word and the values tell the operator. -/
theorem operator_eq_of_values_eq (hw : c.operator.word = c'.operator.word)
    (hv : c.values = c'.values) : c.operator = c'.operator := by
  rcases Operator.eq_or_mem_of_word_eq hw with h | ⟨hop, hop'⟩
  · exact h
  obtain ⟨name, op, vs⟩ := c
  obtain ⟨name', op', vs'⟩ := c'
  -- a truth value is no text, and the other truth value is another one
  simp only [List.mem_cons, List.not_mem_nil, or_false] at hop hop'
  rcases hop with rfl | rfl | rfl <;> rcases hop' with rfl | rfl | rfl <;>
    first
      | rfl
      | exact absurd hv (flag_cons_ne_map_text _ _ _)
      | exact absurd hv.symm (flag_cons_ne_map_text _ _ _)
      | cases hv

/-- The name, the word and the values tell the comparison. -/
theorem eq_of_values_eq (hn : c.name = c'.name) (hw : c.operator.word = c'.operator.word)
    (hv : c.values = c'.values) (h : c.operands.length = c.operator.arity)
    (h' : c'.operands.length = c'.operator.arity) : c = c' := by
  have hop : c.operator = c'.operator := operator_eq_of_values_eq hw hv
  obtain ⟨name, op, vs⟩ := c
  obtain ⟨name', op', vs'⟩ := c'
  obtain rfl : name = name' := hn
  obtain rfl : op = op' := hop
  rw [operands_eq_of_values_eq hv h h']

/-- **A comparison is all that is written at the beginning of a text.** -/
theorem Spellable.text_append_inj (hc : c.Spellable) (hc' : c'.Spellable) {s s' : Text}
    (h : c.text ++ s = c'.text ++ s') : c = c' ∧ s = s' := by
  have hname {d : Comparison} (hd : d.Spellable) : ' ' ∉ d.name := fun hmem => by
    cases hd.isNameChar_of_mem ' ' hmem
  simp only [text, condition_eq, List.append_assoc, List.cons_append] at h
  obtain ⟨hn, h⟩ := word_append_inj (hname hc) (hname hc') h
  obtain ⟨hw, h⟩ := word_append_inj (Operator.space_notMem_word _) (Operator.space_notMem_word _) h
  have hlen : c.values.length = c'.values.length := by
    rw [length_values hc.length_operands, length_values hc'.length_operands,
      Operator.max_arity_eq_of_word_eq hw]
  obtain ⟨hv, hs⟩ := AttributeValue.writtenAll_append_inj hlen hc.quoteFree hc'.quoteFree h
  exact ⟨eq_of_values_eq hn hw hv hc.length_operands hc'.length_operands, hs⟩

end Comparison

/-! ## Predicates -/

namespace Predicate

/-- Predicates put together from comparisons that are read. -/
inductive Readable : Predicate → Prop
  | leaf {t : Text} {c : Comparison} (h : Query.readComparison t = .ok c) : Readable (.leaf c)
  | join {l r : Predicate} (c : Combinator) (hl : Readable l) (hr : Readable r) :
      Readable (.join l c r)

end Predicate

theorem Query.Nest.Reads.readable {part : Query.Part} {n : Query.Nest Nat} {p : Predicate}
    (h : n.Reads part p) : p.Readable := by
  induction h with
  | comparison h => exact .leaf h.readComparison_eq
  | group _ _ ih => exact ih
  | operand _ ih => exact ih
  | join c _ _ ihl ihr => exact .join c ihl ihr

theorem Query.readable_of_compile {q : Text} {p : Predicate} (h : compile q = .ok p) :
    p.Readable :=
  (compile_eq_ok_iff.1 h).2.2.1.readable

theorem Query.spellable_of_readComparison {t : Text} {c : Comparison}
    (h : readComparison t = .ok c) : c.Spellable :=
  (Spells.of_readComparison h).spellable

theorem Predicate.Readable.spellable {p : Predicate} (hp : p.Readable) :
    ∀ c ∈ p.comparisons, c.Spellable := by
  induction hp with
  | leaf h => simpa [comparisons] using Query.spellable_of_readComparison h
  | join c _ _ ihl ihr => exact List.forall_mem_append.2 ⟨ihl, ihr⟩

theorem Combinator.keyword_injective : Function.Injective keyword := fun c c' h => by
  cases c <;> cases c' <;> first | rfl | cases h

theorem Combinator.space_notMem_keyword (c : Combinator) : ' ' ∉ c.keyword := by
  cases c <;> decide +kernel

/-- A comparison does not begin like a join. -/
theorem Comparison.Spellable.text_append_ne {c : Comparison} (hc : c.Spellable) (s s' : Text) :
    c.text ++ s ≠ '(' :: s' := by
  obtain ⟨x, name, hname⟩ := List.exists_cons_of_ne_nil hc.name_ne_nil
  have hx : Query.isNameChar x := hc.isNameChar_of_mem x (by simp [hname])
  rw [text, hname]
  intro h
  obtain rfl : x = '(' := (List.cons.inj h).1
  cases hx

namespace Predicate

theorem text_leaf (c : Comparison) : (leaf c).text = c.text := by simp [text, write]

/-- **A predicate is all that is written at the beginning of a text.** -/
theorem Readable.text_append_inj {p q : Predicate} (hp : p.Readable) (hq : q.Readable)
    {s s' : Text} (h : p.text ++ s = q.text ++ s') : p = q ∧ s = s' := by
  -- the first character tells comparisons from joins, and each side of a join ends
  -- where the induction says
  induction hp generalizing q s s' with
  | leaf hc =>
    have hc := Query.spellable_of_readComparison hc
    rw [text_leaf] at h
    cases hq with
    | leaf hc' =>
      rw [text_leaf] at h
      obtain ⟨rfl, hs⟩ := hc.text_append_inj (Query.spellable_of_readComparison hc') h
      exact ⟨rfl, hs⟩
    | join => exact absurd (by simpa [text_join] using h) (hc.text_append_ne _ _)
  | join c hl hr ihl ihr =>
    cases hq with
    | leaf hc' =>
      have hc' := Query.spellable_of_readComparison hc'
      rw [text_leaf] at h
      exact absurd (by simpa [text_join] using h.symm) (hc'.text_append_ne _ _)
    | join c' hl' hr' =>
      simp only [text_join, List.append_assoc, List.cons_append, List.nil_append,
        List.cons.injEq, true_and] at h
      obtain ⟨rfl, hkeyword⟩ := ihl hl' h
      obtain ⟨hc, hright⟩ := word_append_inj c.space_notMem_keyword c'.space_notMem_keyword
        (List.cons.inj hkeyword).2
      obtain rfl := Combinator.keyword_injective hc
      obtain ⟨rfl, hclose⟩ := ihr hr' hright
      exact ⟨rfl, (List.cons.inj hclose).2⟩

/-! ## Writing in one pass -/

/-- Writes what is pending behind what is written already. -/
def writeAll (written : Text) (pending : List Expression.Step) : Text :=
  match pending with
  | [] => written
  | .node (.leaf c) :: pending => writeAll (written ++ c.text) pending
  | .node (.join l c r) :: pending =>
    writeAll (written ++ ['(']) (.node l :: .keyword c :: .node r :: .close :: pending)
  | .keyword c :: pending => writeAll (written ++ ' ' :: c.keyword ++ [' ']) pending
  | .close :: pending => writeAll (written ++ [')']) pending
termination_by (pending.map Expression.Step.weight).sum
decreasing_by
  · simp [Expression.Step.weight, size]
  · simp only [List.map_cons, List.sum_cons, Expression.Step.weight, size]
    omega
  · simp [Expression.Step.weight]
  · simp [Expression.Step.weight]

/-- Whatever is pending, a predicate is written before it. -/
theorem writeAll_node (p : Predicate) (written : Text) (pending : List Expression.Step) :
    writeAll written (.node p :: pending) = writeAll (written ++ p.text) pending := by
  induction p generalizing written pending with
  | leaf c => rw [writeAll, text_leaf]
  | join l c r ihl ihr =>
    rw [writeAll, ihl, writeAll, ihr, writeAll, text_join]
    simp

/-- **Written forms are unambiguous.**  Predicates of comparisons that are read, such as
    all that queries compile to, are the same if what is written of them is the same, or
    the beginning of the same text.  The pass writes this form. -/
theorem text_append_eq_iff :
    (∀ p q : Predicate, p.Readable → q.Readable → (p.text = q.text ↔ p = q) ∧
      ∀ s s', p.text ++ s = q.text ++ s' ↔ p = q ∧ s = s') ∧
    (∀ t p, Query.compile t = .ok p → p.Readable) ∧
    ∀ p : Predicate, writeAll [] [.node p] = p.text := by
  refine ⟨fun p q hp hq => ?_, fun t p h => Query.readable_of_compile h, fun p => ?_⟩
  · have key (s s' : Text) : p.text ++ s = q.text ++ s' ↔ p = q ∧ s = s' :=
      ⟨hp.text_append_inj hq, fun ⟨hpq, hs⟩ => by rw [hpq, hs]⟩
    exact ⟨by simpa using key [] [], key⟩
  · rw [writeAll_node, writeAll, List.nil_append]

/-- A flag check, and a value that looks like the rest of a predicate. -/
def flagCheck : Predicate := .and (.isTrue "a".toList) (.equal "b".toList ")OR(".toList)

/-- The same with an equality in place of the flag check. -/
def trueText : Predicate := .and (.equal "a".toList "true".toList) (.equal "b".toList ")OR(".toList)

theorem text_append_eq_iff_flagCheck :
    Query.compile "(~~aANDb==\")OR(\")".toList = .ok flagCheck ∧
      Query.compile "a==\"true\"ANDb==\")OR(\"".toList = .ok trueText ∧
      flagCheck.text = "(a == true AND b == \")OR(\")".toList ∧
      trueText.text = "(a == \"true\" AND b == \")OR(\")".toList ∧
      ∀ s s', flagCheck.text ++ s ≠ trueText.text ++ s' := by
  have hflag : Query.compile "(~~aANDb==\")OR(\")".toList = .ok flagCheck := rfl
  have htext : Query.compile "a==\"true\"ANDb==\")OR(\"".toList = .ok trueText := rfl
  obtain ⟨hunique, hread, -⟩ := text_append_eq_iff
  refine ⟨hflag, htext, by decide, by decide, fun s s' h => ?_⟩
  have heq : flagCheck = trueText :=
    (((hunique _ _ (hread _ _ hflag) (hread _ _ htext)).2 s s').1 h).1
  exact absurd heq (by decide)

end Predicate

end RecordFilter
