/-
  Proofs.Tokens — the tokens of a query and of its predicate.

  * `names`, `segments`, `keywordsIn`: the names, quoted segments and keywords of
    a text, by position;
  * `Predicate.combinators`: the combinators of a predicate, left to right;
  * `tokens_of_compile`: a predicate holds exactly the tokens of its query, in
    the same order.
-/
import RecordFilter.Proofs.Resolution

namespace RecordFilter

/-- The combinators of a predicate, left to right. -/
def Predicate.combinators : Predicate → List Combinator
  | leaf _ => []
  | join l c r => l.combinators ++ c :: r.combinators

namespace Query

/-! ## Names -/

/-- The maximal runs of name characters: the text is cut wherever one of two
    neighbours is none. -/
def names (t : Text) : List Text :=
  (t.splitBy fun a b => isNameChar a && isNameChar b).filter (·.all isNameChar)

theorem names_append {s t : Text}
    (h : ∀ x ∈ s.getLast?, ∀ y ∈ t.head?, (isNameChar x && isNameChar y) = false) :
    names (s ++ t) = names s ++ names t := by
  rw [names, List.splitBy_append h, List.filter_append]
  rfl

theorem names_append_left {s t : Text} (h : ∀ x ∈ s, isNameChar x = false) :
    names (s ++ t) = names s ++ names t :=
  names_append fun x hx y _ => by simp [h x (List.mem_of_getLast? hx)]

theorem names_append_right {s t : Text} (h : ∀ x ∈ t, isNameChar x = false) :
    names (s ++ t) = names s ++ names t :=
  names_append fun x _ y hy => by simp [h y (List.mem_of_head? hy)]

theorem names_eq_nil {t : Text} (h : ∀ x ∈ t, isNameChar x = false) : names t = [] := by
  induction t with
  | nil => rfl
  | cons c t ih =>
    have hc : isNameChar c = false := h c (by simp)
    rw [← List.singleton_append, names_append_left (by simp [hc]),
      ih fun x hx => h x (by simp [hx])]
    simp [names, List.splitBy_of_isChain, hc]

/-- Text without name characters separates names. -/
theorem names_append_separator {s u : Text} (t : Text) (hu : ∀ x ∈ u, isNameChar x = false)
    (hne : u ≠ []) : names (s ++ u ++ t) = names s ++ names t := by
  have hlast : ∀ x ∈ (s ++ u).getLast?, isNameChar x = false := by
    intro x hx
    rw [List.getLast?_append_of_ne_nil _ hne] at hx
    exact hu x (List.mem_of_getLast? hx)
  rw [names_append fun x hx y _ => by rw [hlast x hx, Bool.false_and], names_append_right hu,
    names_eq_nil hu, List.append_nil]

theorem names_of_forall {t : Text} (hne : t ≠ []) (h : ∀ x ∈ t, isNameChar x) : names t = [t] := by
  have hchain : t.IsChain fun a b => (isNameChar a && isNameChar b) = true := by
    refine List.Pairwise.isChain (List.pairwise_of_forall_mem_list fun a ha b hb => ?_)
    rw [h a ha, h b hb]
    rfl
  rw [names, List.splitBy_of_isChain hne hchain]
  simpa using h

/-! ## Quoted segments -/

/-- Every second element, from the second on. -/
def everySecond {α : Type} : List α → List α
  | _ :: x :: xs => x :: everySecond xs
  | _ => []

/-- The segments inside quotes: every second piece between quotes. -/
def segments (t : Text) : List Text := everySecond (t.pieces '"')

theorem segments_of_notMem {t : Text} (h : '"' ∉ t) : segments t = [] := by
  rw [segments, pieces_of_notMem h]
  rfl

theorem segments_append_of_notMem {s : Text} (h : '"' ∉ s) (t : Text) :
    segments (s ++ t) = segments t := by
  -- text without quotes only makes the first piece longer, which is not quoted
  have key : ∃ p p' ps, (s ++ t).pieces '"' = p :: ps ∧ t.pieces '"' = p' :: ps := by
    induction s with
    | nil =>
      cases ht : t.pieces '"' with
      | nil =>
        cases t with
        | nil => cases ht
        | cons c t =>
          rw [Text.pieces] at ht
          split_ifs at ht
          split at ht <;> cases ht
      | cons p ps => exact ⟨p, p, ps, ht, rfl⟩
    | cons c s ih =>
      simp only [List.mem_cons, not_or] at h
      obtain ⟨p, p', ps, h₁, h₂⟩ := ih h.2
      exact ⟨c :: p, p', ps, by rw [List.cons_append, Text.pieces, if_neg (Ne.symm h.1), h₁], h₂⟩
  obtain ⟨p, p', ps, h₁, h₂⟩ := key
  rw [segments, segments, h₁, h₂]
  cases ps <;> rfl

theorem segments_quoted_append {v : Text} (h : '"' ∉ v) (t : Text) :
    segments (quoted v ++ t) = v :: segments t := by
  have hv : quoted v ++ t = [] ++ '"' :: (v ++ '"' :: t) := by simp [quoted]
  rw [segments, hv, pieces_append_cons (by simp), pieces_append_cons h]
  rfl

/-- A text that ends outside quotes is unquoted, or starts with unquoted text and
    a quoted value. -/
theorem exists_quoted {t : Text} (h : quotedAfter false t = false) (hq : '"' ∈ t) :
    ∃ s v u, t = s ++ (quoted v ++ u) ∧ '"' ∉ s ∧ '"' ∉ v := by
  obtain ⟨s, r, rfl, hs⟩ := List.eq_append_cons_of_mem hq
  rw [quotedAfter_append, quotedAfter_of_notMem hs, quotedAfter] at h
  have hr : '"' ∈ r := by
    by_contra hr
    rw [quotedAfter_of_notMem hr] at h
    cases h
  obtain ⟨v, u, rfl, hv⟩ := List.eq_append_cons_of_mem hr
  exact ⟨s, v, u, by simp [quoted], hs, hv⟩

theorem segments_append {s : Text} (h : quotedAfter false s = false) (t : Text) :
    segments (s ++ t) = segments s ++ segments t := by
  induction hl : s.length using Nat.strong_induction_on generalizing s with
  | _ l ih =>
    by_cases hq : '"' ∈ s
    · obtain ⟨a, v, u, rfl, ha, hv⟩ := exists_quoted h hq
      rw [quotedAfter_append, quotedAfter_of_notMem ha, quotedAfter_append,
        quotedAfter_quoted hv] at h
      rw [List.append_assoc, segments_append_of_notMem ha, List.append_assoc,
        segments_quoted_append hv, segments_append_of_notMem ha, segments_quoted_append hv,
        ih u.length (by subst hl; simp [quoted]; omega) h rfl, List.cons_append]
    · rw [segments_append_of_notMem hq, segments_of_notMem hq, List.nil_append]

theorem segments_quotedAll {vs : List Text} (h : ∀ v ∈ vs, '"' ∉ v) :
    segments (quotedAll vs) = vs := by
  induction vs with
  | nil => rfl
  | cons v vs ih =>
    rw [quotedAll_cons, segments_quoted_append (h v (by simp)), ih fun w hw => h w (by simp [hw])]

/-! ## Keywords -/

/-- The keywords in a text, wherever they stand. -/
def keywordsIn : Text → List Combinator
  | [] => []
  | c :: t =>
    [Combinator.and, .or].filter (fun k => k.keyword.isPrefixOf (c :: t)) ++ keywordsIn t

theorem isPrefixOf_append_cons {w : Text} {c : Char} (h : c ∉ w) (s t : Text) :
    w.isPrefixOf (s ++ c :: t) = w.isPrefixOf s := by
  induction w generalizing s with
  | nil => simp
  | cons x w ih =>
    simp only [List.mem_cons, not_or] at h
    cases s with
    | nil => simp [List.isPrefixOf, Ne.symm h.1]
    | cons y s => simp [List.isPrefixOf, ih h.2]

/-- Nothing that starts with another letter than the later ones of the keywords
    completes a keyword. -/
theorem keywordsIn_append {t : Text} (h : t.head?.all (· ∉ ['N', 'D', 'R'])) (s : Text) :
    keywordsIn (s ++ t) = keywordsIn s ++ keywordsIn t := by
  induction s with
  | nil => rfl
  | cons x s ih =>
    have key : ∀ k : Combinator,
        k.keyword.isPrefixOf (x :: (s ++ t)) = k.keyword.isPrefixOf (x :: s) := by
      intro k
      cases t with
      | nil => rw [List.append_nil]
      | cons c t =>
        have hc : c ≠ 'N' ∧ c ≠ 'D' ∧ c ≠ 'R' := by simpa using h
        cases k
        · have := isPrefixOf_append_cons (w := "ND".toList) (c := c) (by simp [hc]) s t
          simp only [Combinator.keyword, String.toList] at this ⊢
          exact congrArg ('A' == x && ·) this
        · have := isPrefixOf_append_cons (w := "R".toList) (c := c) (by simp [hc]) s t
          exact congrArg ('O' == x && ·) this
    rw [List.cons_append, keywordsIn, keywordsIn, ih, List.append_assoc]
    simp only [key]

theorem keywordsIn_append_left {s : Text} (h : ∀ c ∈ s, c ≠ 'A' ∧ c ≠ 'O') (t : Text) :
    keywordsIn (s ++ t) = keywordsIn t := by
  induction s with
  | nil => rfl
  | cons c s ih =>
    obtain ⟨h₁, h₂⟩ := h c (by simp)
    rw [List.cons_append, keywordsIn, ih fun x hx => h x (by simp [hx])]
    simp [Combinator.keyword, List.isPrefixOf, Ne.symm h₁, Ne.symm h₂]

theorem keywordsIn_eq_nil {t : Text} (h : ∀ c ∈ t, c ≠ 'A' ∧ c ≠ 'O') : keywordsIn t = [] := by
  have := keywordsIn_append_left h []
  rwa [List.append_nil] at this

theorem keywordsIn_token_append (op : Operator) (t : Text) :
    keywordsIn (op.token ++ t) = keywordsIn t := by
  cases op <;> rfl

theorem keywordsIn_keyword_append (c : Combinator) (t : Text) :
    keywordsIn (c.keyword ++ t) = c :: keywordsIn t := by
  cases c <;> rfl

/-! ## Tokens of comparisons -/

namespace Spells

variable {t : Text} {c : Comparison}

theorem names_outside (h : Spells t c) : names (outside false t) = [c.name] := by
  have hc := h.spellable
  have hname := names_of_forall hc.name_ne_nil hc.isNameChar_of_mem
  have hquotes : ∀ k, ∀ x ∈ List.replicate k '"', isNameChar x = false := fun k x hx => by
    rw [List.eq_of_mem_replicate hx]
    rfl
  have htoken : ∀ x ∈ c.operator.token, isNameChar x = false := fun x => isNameChar_of_mem_token
  have hrest : ∀ k, ∀ x ∈ c.operator.token ++ List.replicate k '"', isNameChar x = false :=
    fun k x hx => (List.mem_append.1 hx).elim (htoken x) (hquotes k x)
  rcases h.outside_eq with h | ⟨k, l, h⟩
  · rw [h, List.append_assoc, names_append_right (hrest _), hname, names_eq_nil (hrest _)]
    rfl
  · rw [h, names_append_right (hquotes l), names_append_left (hrest k), hname,
      names_eq_nil (hrest k), names_eq_nil (hquotes l)]
    rfl

theorem keywordsIn_outside (h : Spells t c) : keywordsIn (outside false t) = [] := by
  have hname : ∀ x ∈ c.name, x ≠ 'A' ∧ x ≠ 'O' := fun x hx =>
    (inert_of_isNameChar (h.spellable.isNameChar_of_mem x hx)).2
  have hquotes : ∀ k, ∀ x ∈ List.replicate k '"', x ≠ 'A' ∧ x ≠ 'O' := fun k x hx => by
    rw [List.eq_of_mem_replicate hx]
    decide
  rcases h.outside_eq with h | ⟨k, l, h⟩
  · rw [h, List.append_assoc, keywordsIn_append_left hname, keywordsIn_token_append,
      keywordsIn_eq_nil (hquotes _)]
  · rw [h, List.append_assoc, List.append_assoc, keywordsIn_token_append,
      keywordsIn_append_left (hquotes k), keywordsIn_append_left hname,
      keywordsIn_eq_nil (hquotes l)]

theorem segments_eq (h : Spells t c) : segments t = c.operands := by
  have hn := quote_notMem_name h.spellable.isNameChar_of_mem
  have ht := quote_notMem_token c.operator
  cases h with
  | nameFirst hc =>
    rw [List.append_assoc, segments_append_of_notMem hn, segments_append_of_notMem ht,
      segments_quotedAll hc.quote_notMem]
  | @operatorFirst _ hc vs ws hvs =>
    obtain ⟨hvs', hws'⟩ := hc.quote_notMem_append hvs
    rw [List.append_assoc, List.append_assoc, segments_append_of_notMem ht,
      segments_append (quotedAfter_quotedAll hvs'), segments_append_of_notMem hn,
      segments_quotedAll hvs', segments_quotedAll hws', hvs]

end Spells

/-! ## Tokens of queries -/

theorem isNameChar_of_mem_keyword {c : Combinator} {x : Char} (h : x ∈ c.keyword) :
    isNameChar x = false := by
  have key : c.keyword.all (!isNameChar ·) := by cases c <;> rfl
  simpa using List.all_eq_true.1 key x h

/-- The text has the tokens of the predicate, in the same order. -/
structure SameTokens (t : Text) (p : Predicate) : Prop where
  names : names (outside false t) = p.comparisons.map (·.name)
  segments : segments t = p.comparisons.flatMap (·.operands)
  keywords : keywordsIn (outside false t) = p.combinators

theorem isNameChar_of_isDigit {x : Char} (h : x.isDigit) : isNameChar x = false := by
  have h₀ : ('9' : Char).val.toNat = 57 := rfl
  have h₁ : ('a' : Char).val.toNat = 97 := rfl
  have h₂ : x ≠ '_' := by
    rintro rfl
    cases h
  simp only [Char.isDigit, ge_iff_le, Bool.and_eq_true, decide_eq_true_eq,
    UInt32.le_iff_toNat_le] at h
  simp only [isNameChar, Char.isLower, ge_iff_le, Bool.or_eq_false_iff, Bool.and_eq_false_iff,
    decide_eq_false_iff_not, UInt32.le_iff_toNat_le, beq_eq_false_iff_ne]
  exact ⟨Or.inl (by omega), h₂⟩

/-- What closes a group is no part of a name or a keyword. -/
theorem of_mem_closing {d : Text} (hd : ∀ x ∈ d, x.isDigit) :
    ∀ x ∈ ')' :: d, isNameChar x = false ∧ x ∉ ['A', 'O', '"'] := by
  intro x hx
  rcases List.mem_cons.1 hx with rfl | hx
  · exact ⟨rfl, by decide⟩
  · refine ⟨isNameChar_of_isDigit (hd x hx), fun hx' => ?_⟩
    have hx := hd x hx
    simp only [List.mem_cons, List.not_mem_nil, or_false] at hx'
    rcases hx' with rfl | rfl | rfl <;> cases hx

theorem SameTokens.group {t d : Text} {p : Predicate} (h : SameTokens t p)
    (ht : quotedAfter false t = false) (hd : ∀ x ∈ d, x.isDigit) :
    SameTokens ('(' :: t ++ ')' :: d) p := by
  have hq : '"' ∉ ')' :: d := fun h => (of_mem_closing hd _ h).2 (by simp)
  have htext : '(' :: t ++ ')' :: d = ['('] ++ (t ++ ')' :: d) := by simp
  have hout : outside false ('(' :: t ++ ')' :: d) = ['('] ++ (outside false t ++ ')' :: d) := by
    rw [htext, outside_append, outside_append, outside_of_notMem (by simp),
      quotedAfter_of_notMem (by simp), ht, outside_of_notMem hq]
  have hopen : ∀ x ∈ ['('], isNameChar x = false := by
    simp only [List.mem_singleton, forall_eq]
    rfl
  have hclose : ∀ x ∈ ')' :: d, isNameChar x = false := fun x hx => (of_mem_closing hd x hx).1
  have hclose' : ∀ x ∈ ')' :: d, x ≠ 'A' ∧ x ≠ 'O' := fun x hx => by
    have := (of_mem_closing hd x hx).2
    simp only [List.mem_cons, not_or] at this
    exact ⟨this.1, this.2.1⟩
  refine ⟨?_, ?_, ?_⟩
  · rw [hout, names_append_left hopen, names_append_right hclose, h.names, names_eq_nil hclose,
      names_eq_nil hopen, List.append_nil, List.nil_append]
  · rw [htext, segments_append_of_notMem (by simp), segments_append ht, h.segments,
      segments_of_notMem hq, List.append_nil]
  · rw [hout, keywordsIn_append_left (by simp), keywordsIn_append (by rfl), h.keywords,
      keywordsIn_eq_nil hclose', List.append_nil]

theorem SameTokens.join {t u : Text} {l r : Predicate} (c : Combinator) (hl : SameTokens t l)
    (hr : SameTokens u r) (ht : quotedAfter false t = false) :
    SameTokens (t ++ (c.keyword ++ u)) (.join l c r) := by
  have hq : '"' ∉ c.keyword := by cases c <;> simp [Combinator.keyword]
  have hout : outside false (t ++ (c.keyword ++ u)) =
      outside false t ++ c.keyword ++ outside false u := by
    rw [outside_append, ht, outside_append, quotedAfter_of_notMem hq, outside_of_notMem hq,
      List.append_assoc]
  refine ⟨?_, ?_, ?_⟩
  · have hne : c.keyword ≠ [] := by cases c <;> simp [Combinator.keyword]
    rw [hout, names_append_separator _ (fun x => isNameChar_of_mem_keyword) hne, hl.names,
      hr.names, Predicate.comparisons, List.map_append]
  · rw [segments_append ht, segments_append_of_notMem hq, hl.segments, hr.segments,
      Predicate.comparisons, List.flatMap_append]
  · have hhead : (c.keyword ++ outside false u).head?.all (· ∉ ['N', 'D', 'R']) := by
      cases c <;> rfl
    rw [hout, List.append_assoc, keywordsIn_append hhead, keywordsIn_keyword_append, hl.keywords,
      hr.keywords, Predicate.combinators]

/-- What reads has the tokens of its predicate. -/
theorem Nest.Reads.sameTokens {part : Part} {n : Nest Nat} {p : Predicate} (h : n.Reads part p) :
    SameTokens n.text p := by
  induction h with
  | @comparison t c h =>
    rw [Nest.text_ofText]
    refine ⟨?_, ?_, ?_⟩
    · rw [h.names_outside]
      rfl
    · rw [h.segments_eq, Predicate.comparisons, List.flatMap_singleton]
    · rw [h.keywordsIn_outside]
      rfl
  | @group i m d p hm hd ih =>
    rw [Nest.text_group, Nest.text_ofText]
    exact ih.group hm.regular.2 hd.isDigit
  | operand _ ih => exact ih
  | @join n k l r c hn hk ihn ihk =>
    rw [Nest.text_append, Nest.text_append, Nest.text_ofText]
    exact ihn.join c ihk hn.regular.2

/-- **Compiling loses, repeats and moves nothing**: names, values and keywords of
    a query are those of its predicate, in the same order. -/
theorem tokens_of_compile {q : Text} {p : Predicate} (h : compile q = .ok p) :
    p.comparisons.map (·.name) = names (outside false q) ∧
      p.comparisons.flatMap (·.operands) = segments q ∧
      p.combinators = keywordsIn (outside false q) ∧ p.comparisons.length ≤ 1024 := by
  obtain ⟨-, hb, hr, hle⟩ := compile_eq_ok_iff.1 h
  have ht := hr.sameTokens
  rw [hb.text_nestOf] at ht
  exact ⟨ht.names.symm, ht.segments.symm, ht.keywords.symm, hle⟩

/-- Keywords and parentheses inside values are no tokens. -/
theorem tokens_of_nested_groups :
    let q := "(a~OR(b==\")ANDx\"))AND!=c\"\"".toList
    compile q = .ok (.and (.or (.isFalse "a".toList) (.equal "b".toList ")ANDx".toList))
        (.notEqual "c".toList [])) ∧
      names (outside false q) = ["a".toList, "b".toList, "c".toList] ∧
      segments q = [")ANDx".toList, []] ∧ keywordsIn (outside false q) = [.or, .and] := by
  have h : compile "(a~OR(b==\")ANDx\"))AND!=c\"\"".toList =
      .ok (.and (.or (.isFalse "a".toList) (.equal "b".toList ")ANDx".toList))
        (.notEqual "c".toList [])) := rfl
  obtain ⟨hnames, hsegments, hkeywords, -⟩ := tokens_of_compile h
  exact ⟨h, hnames.symm, hsegments.symm, hkeywords.symm⟩

end Query

end RecordFilter
