/-
  Proofs.Reading — what a text with numbered groups reads as.

  * `Nest.Reads`: the grammar on nests, in which a group may have digits behind
    it that leave its number alone;
  * `Nest.reads_iff_cut`: an expression is read from the pieces of its cut;
  * `Reads.operand_spec`, `Reads.means_unique`: what the operand of a piece that
    reads refers to, and what it can mean;
  * `reads_append_keyword`: what is behind the last keyword is joined last;
  * `Reads.unique`: what a nest reads as does not depend on its numbers.
-/
import RecordFilter.Proofs.Build
import RecordFilter.Proofs.Operands

namespace RecordFilter

namespace Query

/-- The two parts of the grammar: what keywords join, and what is joined. -/
inductive Part where
  | operand
  | expression
  deriving DecidableEq, Repr

namespace Nest

/-! ## Reading -/

/-- What a nest reads as: a comparison, a group, or operands joined from left to
    right. -/
inductive Reads : Part → Nest Nat → Predicate → Prop
  | comparison {t : Text} {c : Comparison} (h : Spells t c) : Reads .operand (ofText t) (.leaf c)
  | group {i : Nat} {m : Nest Nat} {d : Text} {p : Predicate} (h : Reads .expression m p)
      (hd : KeepsNumber i d) : Reads .operand (group i m (ofText d)) p
  | operand {n : Nest Nat} {p : Predicate} (h : Reads .operand n p) : Reads .expression n p
  | join {n k : Nest Nat} {l r : Predicate} (c : Combinator) (hn : Reads .expression n l)
      (hk : Reads .operand k r) :
      Reads .expression (n.append ((ofText c.keyword).append k)) (.join l c r)

theorem regular_ofText_of_notMem {α : Type} {b : Bool} {t : Text} (h₁ : '(' ∉ t) (h₂ : ')' ∉ t) :
    (ofText t : Nest α).Regular b := by
  rw [← toMarks_eq_marks_text_iff, toMarks_ofText, text_ofText, marks_of_notMem h₁ h₂]

theorem regular_ofText_of_spells {α : Type} {t : Text} {c : Comparison} (h : Spells t c) :
    (ofText t : Nest α).Regular false := by
  rw [← toMarks_eq_marks_text_iff, toMarks_ofText, text_ofText, h.marks_eq]

theorem notMem_of_digits {d : Text} (h : ∀ x ∈ d, x.isDigit) {x : Char} (hx : x.isDigit = false) :
    x ∉ d := fun hd => by simp [h x hd] at hx

/-- What reads is regular, and ends outside quotes. -/
theorem Reads.regular {part : Part} {n : Nest Nat} {p : Predicate} (h : Reads part n p) :
    n.Regular false ∧ quotedAfter false n.text = false := by
  induction h with
  | comparison h => exact ⟨regular_ofText_of_spells h, by rw [text_ofText, h.quotedAfter_eq]⟩
  | @group i m d p _ hd ih =>
    have hq : '"' ∉ d := notMem_of_digits hd.isDigit rfl
    have hr : (ofText d : Nest Nat).Regular false :=
      regular_ofText_of_notMem (notMem_of_digits hd.isDigit rfl) (notMem_of_digits hd.isDigit rfl)
    exact ⟨⟨rfl, ih.1, ih.2, hr⟩, by simp [quotedAfter, ih.2, quotedAfter_of_notMem hq]⟩
  | operand _ ih => exact ih
  | join c _ _ ihn ihk =>
    have hc : (ofText c.keyword : Nest Nat).Regular false := by
      cases c <;> simp [Combinator.keyword, ofText, Regular]
    have hq : quotedAfter false c.keyword = false := by cases c <;> rfl
    simp [ihn.1, ihn.2, hc, hq, ihk.1, ihk.2]

/-- An operand is not cut. -/
theorem Reads.cut_eq {n : Nest Nat} {p : Predicate} (h : Reads .operand n p) :
    n.cut false = (n, []) := by
  cases h with
  | comparison h => exact cut_ofText_of_uncut h.uncut
  | group _ hd => rw [cut, cut_ofText_of_uncut (uncut_of_digits hd.isDigit)]

/-- Operands that read, with the keywords before them. -/
def ReadAll (xs : List (Combinator × Nest Nat)) (qs : List (Combinator × Predicate)) : Prop :=
  List.Forall₂ (fun x y => x.1 = y.1 ∧ Reads .operand x.2 y.2) xs qs

theorem glue_append {α : Type} (n k : Nest α) (rest : List (Combinator × Nest α)) :
    glue (n.append k) rest = n.append (glue k rest) := by
  cases rest <;> simp [glue]

theorem Reads.glue {n : Nest Nat} {p : Predicate} (h : Reads .expression n p)
    {rest : List (Combinator × Nest Nat)} {qs : List (Combinator × Predicate)}
    (hr : ReadAll rest qs) : Reads .expression (glue n rest) (p.joins qs) := by
  unfold ReadAll at hr
  induction hr generalizing n p with
  | nil => exact h
  | @cons x y rest qs hxy _ ih =>
    obtain ⟨c, k⟩ := x
    obtain ⟨c', q⟩ := y
    obtain ⟨rfl, hk⟩ := hxy
    have := ih (.join c h hk)
    rwa [glue_append, glue_append] at this

/-- **An expression is read from the pieces of its cut.** -/
theorem reads_iff_cut {n : Nest Nat} {p : Predicate} : Reads .expression n p ↔
    ∃ q qs, Reads .operand (n.cut false).1 q ∧ ReadAll (n.cut false).2 qs ∧ p = q.joins qs := by
  constructor
  · intro h
    generalize hpart : Part.expression = part at h
    induction h with
    | comparison => cases hpart
    | group => cases hpart
    | operand h => exact ⟨_, [], by rwa [h.cut_eq], by rw [h.cut_eq]; exact .nil, rfl⟩
    | @join n k l r c hn hk ihn _ =>
      obtain ⟨q, qs, hq, hqs, rfl⟩ := ihn rfl
      rw [cut_append_keyword c k false n hn.regular.1 hn.regular.2, hk.cut_eq]
      refine ⟨q, qs ++ [(c, r)], hq, ?_, by simp [Predicate.joins]⟩
      exact List.rel_append hqs (.cons ⟨rfl, hk⟩ .nil)
  · rintro ⟨q, qs, hq, hqs, rfl⟩
    have := Reads.glue (.operand hq) hqs
    rwa [glue_cut] at this

theorem Reads.of_mem_pieces {n : Nest Nat} {p : Predicate} (h : Reads .expression n p)
    {s : Nest Nat} (hs : s ∈ n.pieces) : ∃ q, Reads .operand s q := by
  obtain ⟨q, qs, hq, hqs, -⟩ := reads_iff_cut.1 h
  rcases List.mem_cons.1 hs with rfl | hs
  · exact ⟨q, hq⟩
  · obtain ⟨x, hx, rfl⟩ := List.mem_map.1 hs
    unfold ReadAll at hqs
    obtain ⟨k, hk, rfl⟩ := List.mem_iff_getElem.1 hx
    have hk' : k < qs.length := hqs.length_eq ▸ hk
    exact ⟨qs[k].2, (hqs.get hk hk').2⟩

theorem Reads.of_mem_groups {part : Part} {n : Nest Nat} {p : Predicate} (h : Reads part n p)
    {g : Nat × Nest Nat} (hg : g ∈ n.groups) : ∃ q, Reads .expression g.2 q := by
  induction h with
  | comparison => simp at hg
  | @group i m d p h _ ih =>
    simp only [groups, groups_ofText, List.append_nil, List.mem_cons] at hg
    rcases hg with rfl | hg
    · exact ⟨p, h⟩
    · exact ih hg
  | operand _ ih => exact ih hg
  | join c _ _ ihn ihk =>
    simp only [groups_append, groups_ofText, List.nil_append, List.mem_append] at hg
    exact hg.elim ihn ihk

/-- The operand that a readable piece is written as refers to its group. -/
theorem Reads.operand_spec {s : Nest Nat} {q : Predicate} (h : Reads .operand s q) :
    s.operand.references = s.kids ∧
      ∀ t, s.operand = .comparison t → ∃ c, readComparison t = .ok c := by
  cases h with
  | comparison h =>
    rw [operand_ofText h]
    refine ⟨by simp [Operand.references], fun t ht => ?_⟩
    cases ht
    exact ⟨_, h.readComparison_eq⟩
  | group h hd =>
    rw [operand_group hd]
    exact ⟨by simp [Operand.references, kids], fun t ht => by cases ht⟩

/-- The only predicate that the operand of a readable piece can mean. -/
theorem Reads.means_unique {s : Nest Nat} {q r : Predicate} (h : Reads .operand s q)
    {ps : List Predicate}
    (hps : ∀ g ∈ s.groups, g.1 ∈ s.kids → ∀ p, Reads .expression g.2 p → ps[g.1]? = some p)
    (hr : s.operand.Means ps r) : q = r := by
  cases h with
  | comparison h =>
    rw [operand_ofText h] at hr
    cases hr with
    | comparison hc =>
      rw [h.readComparison_eq, Except.ok.injEq] at hc
      rw [hc]
  | @group i m d _ h hd =>
    rw [operand_group hd] at hr
    cases hr with
    | reference hi =>
      rw [hps (i, m) (by simp [groups]) (by simp [kids]) q h, Option.some.injEq] at hi
      exact hi

/-! ## One reading -/

/-- What is not cut reads as an operand only. -/
theorem Reads.operand_of_cut_eq {n : Nest Nat} {p : Predicate} (hn : n.cut false = (n, []))
    (h : Reads .expression n p) : Reads .operand n p := by
  obtain ⟨q, qs, hq, hqs, rfl⟩ := reads_iff_cut.1 h
  rw [hn] at hq hqs
  cases hqs
  exact hq

theorem exists_of_forall₂_concat {α β : Type} {R : α → β → Prop} {xs : List α} {x : α} {ys : List β}
    (h : List.Forall₂ R (xs ++ [x]) ys) :
    ∃ zs y, ys = zs ++ [y] ∧ List.Forall₂ R xs zs ∧ R x y := by
  induction xs generalizing ys with
  | nil =>
    cases h with
    | cons hxy h =>
      cases h
      exact ⟨[], _, rfl, .nil, hxy⟩
  | cons a xs ih =>
    cases h with
    | cons hab h =>
      obtain ⟨zs, y, rfl, hzs, hy⟩ := ih h
      exact ⟨_ :: zs, y, rfl, .cons hab hzs, hy⟩

/-- **What is behind the last keyword is joined last.** -/
theorem reads_append_keyword {n k : Nest Nat} {c : Combinator} {p : Predicate}
    (hn : n.Regular false) (hquote : quotedAfter false n.text = false)
    (hk : k.cut false = (k, [])) (h : Reads .expression (n.append ((ofText c.keyword).append k)) p) :
    ∃ l r, Reads .expression n l ∧ Reads .operand k r ∧ p = .join l c r := by
  obtain ⟨q, qs, hq, hqs, rfl⟩ := reads_iff_cut.1 h
  rw [cut_append_keyword c k false n hn hquote, hk] at hq hqs
  obtain ⟨qs, y, rfl, hqs₁, hc, hr⟩ := exists_of_forall₂_concat hqs
  obtain ⟨c', r⟩ := y
  cases hc
  exact ⟨q.joins qs, r, reads_iff_cut.2 ⟨q, qs, hq, hqs₁, rfl⟩, hr, by simp [Predicate.joins]⟩

/-- A group reads as what is in it. -/
theorem Reads.of_group {i : Nat} {m k : Nest Nat} {p : Predicate}
    (h : Reads .operand (Nest.group i m k) p) : Reads .expression m p := by
  generalize hn : Nest.group i m k = n at h
  cases h with
  | comparison => exact absurd hn group_ne_ofText
  | group hm _ =>
    obtain ⟨-, rfl, -⟩ := Nest.group.inj hn
    exact hm

/-- **What a nest reads as does not depend on its numbers.** -/
theorem Reads.unique {part : Part} {n m : Nest Nat} {p q : Predicate} (h : Reads part n p)
    (h' : Reads part m q) (hb : n.bare = m.bare) : p = q := by
  induction h generalizing m q with
  | @comparison t c ht =>
    rw [bare_ofText] at hb
    obtain rfl := bare_eq_ofText hb.symm
    generalize hm : (ofText t : Nest Nat) = m at h'
    cases h' with
    | comparison ht' =>
      cases ofText_injective hm
      have hc := ht.readComparison_eq.symm.trans ht'.readComparison_eq
      rw [Except.ok.inj hc]
    | group => exact absurd hm.symm group_ne_ofText
  | @group i k d p _ hd ih =>
    cases m with
    | done => cases hb
    | char => cases hb
    | group j k' r =>
      simp only [bare, map, group.injEq, true_and] at hb
      exact ih h'.of_group hb.1
  | operand hn ih => exact ih (h'.operand_of_cut_eq (cut_eq_of_bare hb hn.cut_eq)) hb
  | @join n k l r c hn hk ihn ihk =>
    rw [bare_append, bare_append, bare_ofText] at hb
    obtain ⟨n', m', rfl, hn', hm'⟩ := exists_append_of_bare hb.symm
    obtain ⟨w, k', rfl, hw, hk'⟩ := exists_append_of_bare hm'
    obtain rfl := bare_eq_ofText hw
    -- the two left-hand sides have the same marks, so the keyword is outside quotes in both
    have hmarks := toMarks_eq_of_bare hn'
    have htext : n'.text = n.text := by rw [text, hmarks]; rfl
    have hregular : n'.Regular false := by
      rw [← toMarks_eq_marks_text_iff, hmarks, htext, toMarks_eq_marks_text_iff]
      exact hn.regular.1
    obtain ⟨l', r', hl', hr', rfl⟩ := reads_append_keyword hregular
      (htext ▸ hn.regular.2) (cut_eq_of_bare hk'.symm hk.cut_eq) h'
    rw [ihn hl' hn'.symm, ihk hr' hk'.symm]

end Nest

end Query

end RecordFilter
