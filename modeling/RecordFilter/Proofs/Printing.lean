/-
  Proofs.Printing — queries written from syntax trees.

  * `Spelling`: a comparison as it can be written, with its text;
  * `Tree`: the syntax trees of the grammar, with `Tree.print`, `Tree.fold` and
    `Tree.leaves`;
  * `Tree.ofSequence`: an expression is a sequence of operands, printed in turn
    and folded from the left;
  * `compile_print`: what is printed compiles to the fold, unless it has too
    many leaves.
-/
import RecordFilter.Proofs.Grammar

namespace RecordFilter

instance (c : Comparison) : Decidable c.Spellable :=
  decidable_of_iff
    (c.name ≠ [] ∧ c.name.all Query.isNameChar ∧ c.operands.all (·.all (· ≠ '"')) ∧
      c.operands.length = c.operator.arity) <| by
    simp only [List.all_eq_true, decide_eq_true_eq]
    exact ⟨fun ⟨h₁, h₂, h₃, h₄⟩ => ⟨h₁, h₂, fun v hv hq => h₃ v hv _ hq rfl, h₄⟩,
      fun h => ⟨h.name_ne_nil, h.isNameChar_of_mem,
        fun v hv x hx he => h.quote_notMem v hv (he ▸ hx), h.length_operands⟩⟩

namespace Query

/-! ## Comparisons -/

/-- A comparison as it is written: its operator behind the name or before it, and
    then its values, of allowed characters without quotes. -/
structure Spelling where
  comparison : Comparison
  operatorFirst : Bool
  spellable : comparison.Spellable
  allowed : comparison.operands.all (·.all isAllowed)

namespace Spelling

/-- The text of a comparison. -/
def print (w : Spelling) : Text :=
  let c := w.comparison
  (if w.operatorFirst then c.operator.token ++ c.name else c.name ++ c.operator.token) ++
    quotedAll c.operands

theorem spells_print (w : Spelling) : Spells w.print w.comparison := by
  rw [print]
  split_ifs
  · simpa using Spells.operatorFirst w.spellable (List.nil_append _).symm
  · exact .nameFirst w.spellable

theorem isAllowed_of_isNameChar {x : Char} (h : isNameChar x) : isAllowed x := by
  simp only [isNameChar, Bool.or_eq_true] at h
  rcases h with h | h
  · simp [isAllowed, Char.isAlphanum, Char.isAlpha, h]
  · simp [isAllowed, h]

theorem isAllowed_of_mem_token {op : Operator} {x : Char} (h : x ∈ op.token) : isAllowed x := by
  have key : op.token.all isAllowed := by cases op <;> rfl
  exact List.all_eq_true.1 key x h

theorem isAllowed_of_mem_print {w : Spelling} : ∀ x ∈ w.print, isAllowed x := by
  have hn : ∀ x ∈ w.comparison.name, isAllowed x := fun x hx =>
    isAllowed_of_isNameChar (w.spellable.isNameChar_of_mem x hx)
  have hv : ∀ x ∈ quotedAll w.comparison.operands, isAllowed x := by
    intro x hx
    obtain ⟨v, hv, hx⟩ := List.mem_flatMap.1 hx
    simp only [quoted, List.cons_append, List.mem_cons, List.mem_append, List.not_mem_nil,
      or_false] at hx
    rcases hx with rfl | hx | rfl
    · rfl
    · exact List.all_eq_true.1 (List.all_eq_true.1 w.allowed v hv) x hx
    · rfl
  intro x hx
  rw [print, List.mem_append] at hx
  rcases hx with hx | hx
  · split_ifs at hx <;> rcases List.mem_append.1 hx with hx | hx
    · exact isAllowed_of_mem_token hx
    · exact hn x hx
    · exact hn x hx
    · exact isAllowed_of_mem_token hx
  · exact hv x hx

end Spelling

/-! ## Syntax trees -/

/-- The syntax trees of the grammar. -/
inductive Tree : Part → Type
  | comparison (w : Spelling) : Tree .operand
  | group (e : Tree .expression) : Tree .operand
  | operand (o : Tree .operand) : Tree .expression
  | join (e : Tree .expression) (c : Combinator) (o : Tree .operand) : Tree .expression

namespace Tree

/-- The text of a tree. -/
def print : {part : Part} → Tree part → Text
  | _, comparison w => w.print
  | _, group e => '(' :: e.print ++ [')']
  | _, operand o => o.print
  | _, join e c o => e.print ++ c.keyword ++ o.print

/-- The predicate of a tree: operands joined strictly from left to right, and a
    group the predicate of what is in it. -/
def fold : {part : Part} → Tree part → Predicate
  | _, comparison w => .leaf w.comparison
  | _, group e => e.fold
  | _, operand o => o.fold
  | _, join e c o => .join e.fold c o.fold

/-- The number of comparisons in a tree. -/
def leaves : {part : Part} → Tree part → Nat
  | _, comparison _ => 1
  | _, group e => e.leaves
  | _, operand o => o.leaves
  | _, join e _ o => e.leaves + o.leaves

/-! ## Expressions as sequences -/

/-- The expression of an operand and further ones, each behind a keyword. -/
def ofSequence (o : Tree .operand) (os : List (Combinator × Tree .operand)) : Tree .expression :=
  os.foldl (fun e x => join e x.1 x.2) (operand o)

theorem exists_ofSequence (e : Tree .expression) : ∃ o os, e = ofSequence o os := by
  cases e with
  | operand o => exact ⟨o, [], rfl⟩
  | join e c o =>
    obtain ⟨o', os, rfl⟩ := exists_ofSequence e
    exact ⟨o', os ++ [(c, o)], by simp [ofSequence]⟩

theorem print_ofSequence (o : Tree .operand) (os : List (Combinator × Tree .operand)) :
    (ofSequence o os).print = o.print ++ os.flatMap fun x => x.1.keyword ++ x.2.print := by
  induction os using List.reverseRecOn with
  | nil => simp [ofSequence, print]
  | append_singleton os x ih =>
    rw [ofSequence] at ih ⊢
    rw [List.foldl_append, List.foldl_cons, List.foldl_nil, print, ih]
    simp

/-- **The predicate of a sequence is its left fold.** -/
theorem fold_ofSequence (o : Tree .operand) (os : List (Combinator × Tree .operand)) :
    (ofSequence o os).fold = os.foldl (fun p x => .join p x.1 x.2.fold) o.fold := by
  induction os using List.reverseRecOn with
  | nil => rfl
  | append_singleton os x ih =>
    rw [ofSequence] at ih ⊢
    rw [List.foldl_append, List.foldl_cons, List.foldl_nil, fold, ih]
    simp

/-! ## Compiling -/

variable {part : Part}

theorem derives_print (e : Tree part) : Derives part e.print e.fold := by
  induction e with
  | comparison w => exact .comparison w.spells_print.readComparison_eq
  | group e ih => exact .group ih
  | operand o ih => exact .operand ih
  | join e c o ihe iho => exact .join c ihe iho

theorem isAllowed_of_mem_keyword {c : Combinator} {x : Char} (h : x ∈ c.keyword) :
    isAllowed x := by
  have key : c.keyword.all isAllowed := by cases c <;> rfl
  exact List.all_eq_true.1 key x h

theorem isAllowed_of_mem_print (e : Tree part) : ∀ x ∈ e.print, isAllowed x := by
  induction e with
  | comparison w => exact w.isAllowed_of_mem_print
  | group e ih =>
    intro x hx
    simp only [print, List.cons_append, List.mem_cons, List.mem_append, List.not_mem_nil,
      or_false] at hx
    rcases hx with rfl | hx | rfl
    · rfl
    · exact ih x hx
    · rfl
  | operand o ih => exact ih
  | join e c o ihe iho =>
    intro x hx
    simp only [print, List.mem_append] at hx
    rcases hx with (hx | hx) | hx
    · exact ihe x hx
    · exact isAllowed_of_mem_keyword hx
    · exact iho x hx

theorem length_comparisons_fold (e : Tree part) : e.fold.comparisons.length = e.leaves := by
  induction e with
  | comparison w => rfl
  | group e ih => exact ih
  | operand o ih => exact ih
  | join e c o ihe iho => rw [fold, Predicate.comparisons, List.length_append, ihe, iho, leaves]

end Tree

/-- **What is printed from a tree compiles to the fold of the tree**, unless it
    has too many leaves.  A text is no longer than the largest index. -/
theorem compile_print (e : Tree .expression) (hl : e.print.length ≤ Text.maxIndex) :
    compile e.print = if e.leaves ≤ maxComparisons then .ok e.fold
      else .error (.tooManyComparisons maxComparisons) := by
  rw [← e.length_comparisons_fold]
  exact compile_of_derives e.isAllowed_of_mem_print hl e.derives_print

/-- A tree with groups in groups, and a value that looks like the end of one. -/
def nestedTree : Tree .expression :=
  .join
    (.operand (.group (.join (.operand (.comparison ⟨⟨"a".toList, .isFalse, []⟩, false,
        by decide, rfl⟩)) .or
      (.group (.operand (.comparison ⟨⟨"b".toList, .between, [")OR".toList, []]⟩, true,
        by decide, by decide⟩))))))
    .and (.comparison ⟨⟨"c_d".toList, .contains, ["~".toList]⟩, false,
      by decide, by decide⟩)

theorem compile_print_nestedTree :
    compile "(a~OR(BETWEENb\")OR\"\"\"))ANDc_dCONTAINS\"~\"".toList =
      .ok (.and (.or (.isFalse "a".toList) (.between "b".toList ")OR".toList []))
        (.contains "c_d".toList "~".toList)) :=
  (compile_print nestedTree (by decide +kernel)).trans (if_pos (by decide +kernel))

end Query

end RecordFilter
