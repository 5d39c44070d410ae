/-
  Proofs.Grammar — the grammar of queries.

  * `Derives`: the texts of the grammar, with the predicates they stand for;
  * `compile_of_derives`: a query of the grammar compiles, unless it has too
    many comparisons;
  * `NoDigitBehindGroup`: no unquoted closing parenthesis has a digit behind it;
  * `derives_iff_of_compile`: what compiles is of the grammar iff it is so, and
    in any case but for zeros behind one closing parenthesis.
-/
import RecordFilter.Proofs.Resolution

namespace RecordFilter

namespace Query

/-! ## Derivations -/

/-- The grammar of queries: comparisons, groups in parentheses, and operands with
    keywords between them, joined strictly from left to right. -/
inductive Derives : Part → Text → Predicate → Prop
  | comparison {t : Text} {c : Comparison} (h : readComparison t = .ok c) :
      Derives .operand t (.leaf c)
  | group {t : Text} {p : Predicate} (h : Derives .expression t p) :
      Derives .operand ('(' :: t ++ [')']) p
  | operand {t : Text} {p : Predicate} (h : Derives .operand t p) : Derives .expression t p
  | join {t u : Text} {l r : Predicate} (c : Combinator) (ht : Derives .expression t l)
      (hu : Derives .operand u r) : Derives .expression (t ++ c.keyword ++ u) (.join l c r)

/-- An expression is an operand and further ones, each behind a keyword, and
    stands for the left fold of what they stand for. -/
theorem derives_expression_iff {t : Text} {p : Predicate} : Derives .expression t p ↔
    ∃ (u : Text) (q : Predicate) (us : List (Combinator × Text))
      (qs : List (Combinator × Predicate)), Derives .operand u q ∧
      List.Forall₂ (fun x y => x.1 = y.1 ∧ Derives .operand x.2 y.2) us qs ∧
      t = u ++ us.flatMap (fun x => x.1.keyword ++ x.2) ∧ p = q.joins qs := by
  constructor
  · intro h
    generalize hpart : Part.expression = part at h
    induction h with
    | comparison => cases hpart
    | group => cases hpart
    | @operand t p h => exact ⟨t, p, [], [], h, .nil, by simp, rfl⟩
    | @join t v l r c _ hv iht _ =>
      obtain ⟨u, q, us, qs, hu, hus, rfl, rfl⟩ := iht rfl
      refine ⟨u, q, us ++ [(c, v)], qs ++ [(c, r)], hu, ?_, by simp, by simp [Predicate.joins]⟩
      exact List.rel_append hus (.cons ⟨rfl, hv⟩ .nil)
  · rintro ⟨u, q, us, qs, hu, hus, rfl, rfl⟩
    -- the induction is on the further operands, with any expression before them
    have key : ∀ {v l}, Derives .expression v l →
        Derives .expression (v ++ us.flatMap fun x => x.1.keyword ++ x.2) (l.joins qs) := by
      clear hu
      induction hus with
      | nil =>
        intro v l hv
        simpa [Predicate.joins] using hv
      | @cons x y us qs hxy _ ih =>
        intro v l hv
        obtain ⟨c, w⟩ := x
        obtain ⟨c', r⟩ := y
        obtain ⟨rfl, hw⟩ := hxy
        have := ih (.join c hv hw)
        simpa [Predicate.joins, List.append_assoc] using this
    exact key (.operand hu)

theorem quotedAfter_keyword (c : Combinator) : quotedAfter false c.keyword = false := by
  cases c <;> rfl

theorem marks_keyword (c : Combinator) : marks false c.keyword = c.keyword.map .char := by
  cases c <;> rfl

theorem marks_group {t : Text} (h : quotedAfter false t = false) :
    marks false ('(' :: t ++ [')']) = .opening :: marks false t ++ [.closing] := by
  simp [marks, marks_append, h]

theorem Derives.quotedAfter_eq {part : Part} {t : Text} {p : Predicate} (h : Derives part t p) :
    quotedAfter false t = false := by
  induction h with
  | comparison h => exact (readComparison_eq_ok_iff.1 h).quotedAfter_eq
  | group _ ih => simp [quotedAfter, ih]
  | operand _ ih => exact ih
  | join c _ _ iht ihu => simp [iht, ihu, quotedAfter_keyword]

/-- A text of the grammar is balanced, and reads with any numbers that are not
    too large. -/
theorem Derives.exists_nest {part : Part} {t : Text} {p : Predicate} (h : Derives part t p) :
    ∃ n₀ : Nest Unit, n₀.toMarks = marks false t ∧
      ∀ n : Nest Nat, n.bare = n₀ → (∀ i ∈ n.labels, i ≤ Text.maxIndex) → n.Reads part p := by
  induction h with
  | @comparison t c h =>
    rw [readComparison_eq_ok_iff] at h
    refine ⟨Nest.ofText t, by rw [Nest.toMarks_ofText, h.marks_eq], fun n hn _ => ?_⟩
    rw [Nest.bare_eq_ofText hn]
    exact .comparison h
  | @group t p h ih =>
    obtain ⟨m₀, hm₀, hm⟩ := ih
    refine ⟨.group () m₀ .done, ?_, fun n hn hl => ?_⟩
    · rw [marks_group h.quotedAfter_eq, Nest.toMarks, hm₀]
      rfl
    · cases n with
      | done => cases hn
      | char => cases hn
      | group i m r =>
        simp only [Nest.bare, Nest.map, Nest.group.injEq, true_and] at hn
        obtain rfl : r = .done := Nest.bare_eq_ofText (t := []) hn.2
        simp only [Nest.labels, List.append_nil, List.mem_cons, forall_eq_or_imp] at hl
        exact .group (d := []) (hm m hn.1 hl.2) (keepsNumber_iff.2 ⟨hl.1, Or.inl rfl⟩)
  | operand _ ih =>
    obtain ⟨n₀, hn₀, hn⟩ := ih
    exact ⟨n₀, hn₀, fun n hb hl => .operand (hn n hb hl)⟩
  | @join t u l r c ht hu iht ihu =>
    obtain ⟨n₀, hn₀, hn⟩ := iht
    obtain ⟨k₀, hk₀, hk⟩ := ihu
    refine ⟨n₀.append ((Nest.ofText c.keyword).append k₀), ?_, fun n hb hl => ?_⟩
    · rw [Nest.toMarks_append, Nest.toMarks_append, Nest.toMarks_ofText, hn₀, hk₀,
        List.append_assoc, marks_append, ht.quotedAfter_eq, marks_append, quotedAfter_keyword,
        marks_keyword]
    · obtain ⟨n₁, n', rfl, h₁, h'⟩ := Nest.exists_append_of_bare hb
      obtain ⟨w, k₁, rfl, hw, hk₁⟩ := Nest.exists_append_of_bare h'
      rw [Nest.bare_eq_ofText hw] at hl ⊢
      simp only [Nest.labels_append, Nest.labels_ofText, List.nil_append, List.mem_append] at hl
      exact .join c (hn n₁ h₁ fun i hi => hl i (Or.inl hi))
        (hk k₁ hk₁ fun i hi => hl i (Or.inr hi))

theorem Nest.length_labels_le (n : Nest Nat) : n.labels.length ≤ n.text.length := by
  induction n with
  | done => exact Nat.le_refl 0
  | char c r ih =>
    rw [Nest.labels, Nest.text_char, List.length_cons]
    omega
  | group a i r ihi ihr =>
    simp only [Nest.labels, Nest.text_group, List.cons_append, List.length_cons,
      List.length_append]
    omega

theorem Derives.reads_nestOf {q : Text} {p : Predicate} (h : Derives .expression q p)
    (hl : q.length ≤ Text.maxIndex) : Balanced q ∧ (nestOf q).Reads .expression p := by
  obtain ⟨n₀, hn₀, hn⟩ := h.exists_nest
  have hb : Balanced q := ⟨n₀, hn₀⟩
  refine ⟨hb, hn _ ?_ fun i hi => ?_⟩
  · rw [nestOf, ← hn₀, Nest.ofMarks_toMarks, Nest.bare_number, Nest.bare_unit]
  · have h₁ := (numbered_nestOf q).mem_labels.1 hi
    have h₂ := (nestOf q).length_labels_le
    rw [hb.text_nestOf] at h₂
    omega

/-- **A query of the grammar compiles to what it stands for**, unless it has too
    many comparisons.  A text is no longer than the largest index. -/
theorem compile_of_derives {q : Text} {p : Predicate} (ha : ∀ c ∈ q, isAllowed c)
    (hl : q.length ≤ Text.maxIndex) (h : Derives .expression q p) :
    compile q = if p.comparisons.length ≤ maxComparisons then .ok p
      else .error (.tooManyComparisons maxComparisons) :=
  have ⟨hb, hr⟩ := h.reads_nestOf hl
  compile_of_reads ha hb hr

/-! ## Digits behind groups -/

/-- Whether a mark is a decimal digit. -/
def Mark.isDigit : Mark → Bool
  | char c => c.isDigit
  | _ => false

/-- No closing parenthesis outside quotes has a digit right behind it. -/
def NoDigitBehindGroup (q : Text) : Prop :=
  (marks false q).IsChain fun a b => a = .closing → b.isDigit = false

instance (q : Text) : Decidable (NoDigitBehindGroup q) :=
  inferInstanceAs (Decidable (List.IsChain _ _))

theorem noDigitBehindGroup_of_marks {q : Text} (h : marks false q = q.map .char) :
    NoDigitBehindGroup q := by
  rw [NoDigitBehindGroup, h, List.isChain_map]
  exact (List.pairwise_of_forall fun a b ha => by cases ha).isChain

namespace Nest

/-- No group of a nest has a digit right behind it. -/
def NoDigitBehindGroup {α : Type} (n : Nest α) : Prop :=
  n.toMarks.IsChain fun a b => a = .closing → b.isDigit = false

theorem NoDigitBehindGroup.of_within {α : Type} {n m : Nest α} (h : n.NoDigitBehindGroup)
    (hm : m.toMarks <:+: n.toMarks) : m.NoDigitBehindGroup :=
  List.IsChain.infix h hm

theorem NoDigitBehindGroup.isDigit_eq_false {α : Type} {i : α} {m r : Nest α} {c : Char}
    (h : (group i m (char c r)).NoDigitBehindGroup) : c.isDigit = false := by
  have hchain : (.opening :: m.toMarks ++ .closing :: .char c :: r.toMarks).IsChain
      fun a b => a = Mark.closing → b.isDigit = false := h
  exact (List.isChain_cons_cons.1 hchain.right_of_append).1 rfl

end Nest

theorem Balanced.noDigitBehindGroup_nestOf {q : Text} (hb : Balanced q)
    (hd : NoDigitBehindGroup q) : (nestOf q).NoDigitBehindGroup := by
  rw [Nest.NoDigitBehindGroup, hb.toMarks_nestOf]
  exact hd

/-- **The grammar has no digits behind groups.** -/
theorem Derives.noDigitBehindGroup {part : Part} {t : Text} {p : Predicate}
    (h : Derives part t p) : NoDigitBehindGroup t := by
  induction h with
  | comparison h => exact noDigitBehindGroup_of_marks (readComparison_eq_ok_iff.1 h).marks_eq
  | group h ih =>
    rw [NoDigitBehindGroup, marks_group h.quotedAfter_eq]
    refine List.IsChain.append (List.IsChain.cons ih ?_) (.singleton _) ?_
    · intro y _ ho
      cases ho
    · intro x _ y hy _
      simp only [List.head?_cons, Option.mem_def, Option.some.injEq] at hy
      rw [← hy]
      rfl
  | operand _ ih => exact ih
  | @join t u l r c ht hu iht ihu =>
    rw [NoDigitBehindGroup, marks_append, marks_append, quotedAfter_append, ht.quotedAfter_eq,
      quotedAfter_keyword, marks_keyword]
    refine List.IsChain.append (List.IsChain.append iht ?_ ?_) ihu ?_
    · rw [← marks_keyword]
      exact noDigitBehindGroup_of_marks (marks_keyword c)
    · intro x _ y hy _
      cases c <;> · simp only [Combinator.keyword, List.head?_map] at hy; cases hy; rfl
    · intro x hx y _ hcl
      subst hcl
      rw [List.getLast?_append, List.getLast?_map] at hx
      cases c <;> simp [Combinator.keyword] at hx

/-- A text that ends with a closing parenthesis outside quotes. -/
def EndsWithGroup (u : Text) : Prop := (marks false u).getLast? = some .closing

theorem EndsWithGroup.append {s u : Text} (hs : quotedAfter false s = false)
    (hu : EndsWithGroup u) : EndsWithGroup (s ++ u) := by
  rw [EndsWithGroup, marks_append, hs, List.getLast?_append, hu]
  rfl

theorem EndsWithGroup.opening {u : Text} (hu : EndsWithGroup u) : EndsWithGroup ('(' :: u) := by
  have h : marks false ('(' :: u) = [.opening] ++ marks false u := rfl
  rw [EndsWithGroup, h, List.getLast?_append, hu]
  rfl

theorem endsWithGroup_group {t : Text} (h : quotedAfter false t = false) :
    EndsWithGroup ('(' :: t ++ [')']) := by
  rw [EndsWithGroup, marks_group h, List.getLast?_append]
  rfl

theorem EndsWithGroup.quotedAfter_eq {u : Text} (hu : EndsWithGroup u) :
    quotedAfter false u = false := by
  rcases List.eq_nil_or_concat u with rfl | ⟨w, c, rfl⟩
  · rfl
  rw [List.concat_eq_append] at hu ⊢
  rw [EndsWithGroup, marks_append] at hu
  cases hq : quotedAfter false w with
  | true =>
    rw [hq] at hu
    by_cases hc : c = '"' <;> simp [marks, hc] at hu
  | false =>
    rw [hq] at hu
    by_cases hc : c = '"'
    · simp [marks, hc] at hu
    · simp [quotedAfter, hq, hc]

/-- A text of the grammar, but for zeros behind one closing parenthesis. -/
def DerivesButZeros (part : Part) (t : Text) (p : Predicate) : Prop :=
  ∃ u z v, t = u ++ z ++ v ∧ (∀ x ∈ z, x = '0') ∧ (z ≠ [] → EndsWithGroup u) ∧
    Derives part (u ++ v) p

theorem Derives.butZeros {part : Part} {t : Text} {p : Predicate} (h : Derives part t p) :
    DerivesButZeros part t p :=
  ⟨t, [], [], by simp, by simp, by simp, by simpa using h⟩

theorem Derives.groupZeros {t z : Text} {p : Predicate} (h : Derives .expression t p)
    (hz : ∀ x ∈ z, x = '0') : DerivesButZeros .operand ('(' :: t ++ [')'] ++ z) p := by
  refine ⟨'(' :: t ++ [')'], z, [], by simp, hz, fun _ => ?_, ?_⟩
  · exact endsWithGroup_group h.quotedAfter_eq
  · simpa using Derives.group h

namespace DerivesButZeros

theorem group {t : Text} {p : Predicate} (h : DerivesButZeros .expression t p) :
    DerivesButZeros .operand ('(' :: t ++ [')']) p := by
  obtain ⟨u, z, v, rfl, hz, hu, hd⟩ := h
  refine ⟨'(' :: u, z, v ++ [')'], by simp, hz, fun h => (hu h).opening, ?_⟩
  simpa using Derives.group hd

theorem operand {t : Text} {p : Predicate} (h : DerivesButZeros .operand t p) :
    DerivesButZeros .expression t p := by
  obtain ⟨u, z, v, rfl, hz, hu, hd⟩ := h
  exact ⟨u, z, v, rfl, hz, hu, .operand hd⟩

theorem join_left {t u : Text} {l r : Predicate} (c : Combinator)
    (h : DerivesButZeros .expression t l) (hr : Derives .operand u r) :
    DerivesButZeros .expression (t ++ c.keyword ++ u) (.join l c r) := by
  obtain ⟨w, z, v, rfl, hz, hw, hd⟩ := h
  refine ⟨w, z, v ++ c.keyword ++ u, by simp, hz, hw, ?_⟩
  simpa using Derives.join c hd hr

theorem join_right {t u : Text} {l r : Predicate} (c : Combinator) (hl : Derives .expression t l)
    (h : DerivesButZeros .operand u r) :
    DerivesButZeros .expression (t ++ c.keyword ++ u) (.join l c r) := by
  obtain ⟨w, z, v, rfl, hz, hw, hd⟩ := h
  refine ⟨t ++ c.keyword ++ w, z, v, by simp, hz, fun h => (hw h).append ?_, ?_⟩
  · rw [quotedAfter_append, hl.quotedAfter_eq, quotedAfter_keyword]
  · simpa using Derives.join c hl hd

/-- Without digits behind groups there are no zeros to leave out. -/
theorem derives {part : Part} {t : Text} {p : Predicate} (h : DerivesButZeros part t p)
    (ht : NoDigitBehindGroup t) : Derives part t p := by
  obtain ⟨u, z, v, rfl, hz, hu, hd⟩ := h
  cases z with
  | nil => simpa using hd
  | cons x z =>
    have hx : x = '0' := hz x (by simp)
    subst hx
    have hu := hu (by simp)
    have hzero : marks false ('0' :: z ++ v) = .char '0' :: marks false (z ++ v) := rfl
    rw [NoDigitBehindGroup, List.append_assoc, marks_append, hu.quotedAfter_eq, hzero] at ht
    cases (List.isChain_append.1 ht).2.2 _ hu _ rfl rfl

end DerivesButZeros

/-- Only the group with the number zero can have zeros behind it, so what reads
    is of the grammar but for these. -/
theorem Nest.Reads.derives {part : Part} {n : Nest Nat} {p : Predicate} (h : n.Reads part p)
    (hl : n.labels.Nodup) :
    (0 ∉ n.labels → Derives part n.text p) ∧ DerivesButZeros part n.text p := by
  induction h with
  | comparison h =>
    rw [Nest.text_ofText]
    have := Derives.comparison h.readComparison_eq
    exact ⟨fun _ => this, this.butZeros⟩
  | @group i m d p hm hd ih =>
    simp only [Nest.labels, Nest.labels_ofText, List.append_nil, List.nodup_cons] at hl
    obtain ⟨ih₀, ih⟩ := ih hl.2
    have htext : (Nest.group i m (Nest.ofText d)).text = '(' :: m.text ++ [')'] ++ d := by simp
    rw [htext]
    obtain ⟨-, rfl | ⟨rfl, hzeros⟩⟩ := keepsNumber_iff.1 hd
    · rw [List.append_nil]
      refine ⟨fun h₀ => ?_, ih.group⟩
      simp only [Nest.labels, Nest.labels_ofText, List.append_nil, List.mem_cons, not_or] at h₀
      exact .group (ih₀ h₀.2)
    · refine ⟨fun h₀ => ?_, (ih₀ hl.1).groupZeros hzeros⟩
      simp [Nest.labels] at h₀
  | operand _ ih =>
    obtain ⟨ih₀, ih⟩ := ih hl
    exact ⟨fun h₀ => .operand (ih₀ h₀), ih.operand⟩
  | @join n k l r c hn hk ihn ihk =>
    simp only [Nest.labels_append, Nest.labels_ofText, List.nil_append] at hl ⊢
    obtain ⟨hln, hlk, hdis⟩ := List.nodup_append'.1 hl
    obtain ⟨ihn₀, ihn⟩ := ihn hln
    obtain ⟨ihk₀, ihk⟩ := ihk hlk
    have htext : (n.append ((Nest.ofText c.keyword).append k)).text =
        n.text ++ c.keyword ++ k.text := by simp
    rw [htext]
    constructor
    · intro h₀
      rw [List.mem_append, not_or] at h₀
      exact .join c (ihn₀ h₀.1) (ihk₀ h₀.2)
    · -- the number zero is in one of the two at most
      by_cases h₀ : 0 ∈ n.labels
      · exact ihn.join_left c (ihk₀ fun h => hdis h₀ h)
      · exact .join_right c (ihn₀ h₀) ihk

/-! ## What compiles -/

/-- **What compiles is of the grammar iff no digit is behind a group**, and it is
    always of the grammar but for zeros behind one closing parenthesis. -/
theorem derives_iff_of_compile {q : Text} {p : Predicate} (h : compile q = .ok p) :
    (Derives .expression q p ↔ NoDigitBehindGroup q) ∧ DerivesButZeros .expression q p := by
  obtain ⟨-, hb, hr, -⟩ := compile_eq_ok_iff.1 h
  have hz := (hr.derives (numbered_nestOf q).nodup).2
  rw [hb.text_nestOf] at hz
  exact ⟨⟨Derives.noDigitBehindGroup, hz.derives⟩, hz⟩

theorem derives_quoted_parenthesis :
    compile "(a~)AND(b==\")0\")".toList =
        .ok (.and (.isFalse "a".toList) (.equal "b".toList ")0".toList)) ∧
      Derives .expression "(a~)AND(b==\")0\")".toList
        (.and (.isFalse "a".toList) (.equal "b".toList ")0".toList)) :=
  ⟨rfl, (derives_iff_of_compile rfl).1.2 (by decide +kernel)⟩

/-- A zero behind the first group makes no difference, although the grammar has
    no such text. -/
theorem compile_zero_behind_group :
    compile "(a~)0".toList = .ok (.isFalse "a".toList) ∧
      ∀ p, ¬ Derives .expression "(a~)0".toList p :=
  ⟨rfl, fun _ h => absurd h.noDigitBehindGroup (by decide +kernel)⟩

end Query

end RecordFilter
