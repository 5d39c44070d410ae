/-
  Proofs.Outside — what a text looks like outside its quotes.

  * `outside`: the text with one `"` in place of each quoted value;
  * `marks_eq_map_char`, `Uncut`: texts without groups, without keywords;
  * `Spells.outside_eq`: a comparison from outside, and what follows for its
    quotes, groups, keywords and references.
-/
import RecordFilter.Proofs.Spelling

namespace RecordFilter

namespace Query

/-- The text outside quotes, with one `"` in place of each quoted value. -/
def outside : Bool → Text → Text
  | _, [] => []
  | quoted, c :: t =>
    if c = '"' then (if quoted then outside false t else '"' :: outside true t)
    else if quoted then outside true t
    else c :: outside false t

@[simp] theorem outside_append (b : Bool) (t u : Text) :
    outside b (t ++ u) = outside b t ++ outside (quotedAfter b t) u := by
  induction t generalizing b with
  | nil => rfl
  | cons c t ih =>
    simp only [List.cons_append, outside, quotedAfter, ih]
    cases b <;> by_cases hc : c = '"' <;> simp [hc]

theorem outside_of_notMem {t : Text} (h : '"' ∉ t) : outside false t = t := by
  induction t with
  | nil => rfl
  | cons c t ih =>
    simp only [List.mem_cons, not_or] at h
    simp [outside, Ne.symm h.1, ih h.2]

theorem outside_quoted_of_notMem {t : Text} (h : '"' ∉ t) : outside true t = [] := by
  induction t with
  | nil => rfl
  | cons c t ih =>
    simp only [List.mem_cons, not_or] at h
    simp [outside, Ne.symm h.1, ih h.2]

/-- A text is marked as it stands if no parenthesis is outside its quotes. -/
theorem marks_eq_map_char {b : Bool} {t : Text} (h₁ : '(' ∉ outside b t)
    (h₂ : ')' ∉ outside b t) : marks b t = t.map .char := by
  induction t generalizing b with
  | nil => rfl
  | cons c t ih =>
    rw [outside] at h₁ h₂
    rw [marks, List.map_cons]
    by_cases hc : c = '"'
    · have : marks (!b) t = t.map .char := by
        cases b <;> simp only [hc, if_true, Bool.false_eq_true, if_false, List.mem_cons,
          not_or] at h₁ h₂
        · exact ih h₁.2 h₂.2
        · exact ih h₁ h₂
      rw [if_pos hc, this]
    · cases b with
      | true =>
        simp only [hc, if_false, if_true] at h₁ h₂ ⊢
        rw [ih h₁ h₂]
      | false =>
        simp only [hc, if_false, Bool.false_eq_true, List.mem_cons, not_or] at h₁ h₂ ⊢
        rw [if_neg (Ne.symm h₁.1), if_neg (Ne.symm h₂.1), ih h₁.2 h₂.2]

/-! ## Quoted values -/

theorem quotedAfter_quoted {v : Text} (h : '"' ∉ v) : quotedAfter false (quoted v) = false := by
  simp [quoted, quotedAfter, quotedAfter_of_notMem h]

theorem outside_quoted {v : Text} (h : '"' ∉ v) : outside false (quoted v) = ['"'] := by
  simp [quoted, outside, outside_quoted_of_notMem h, quotedAfter_of_notMem h]

theorem quotedAfter_quotedAll {vs : List Text} (h : ∀ v ∈ vs, '"' ∉ v) :
    quotedAfter false (quotedAll vs) = false := by
  induction vs with
  | nil => rfl
  | cons v vs ih =>
    rw [quotedAll_cons, quotedAfter_append, quotedAfter_quoted (h v (by simp))]
    exact ih fun w hw => h w (by simp [hw])

theorem outside_quotedAll {vs : List Text} (h : ∀ v ∈ vs, '"' ∉ v) :
    outside false (quotedAll vs) = List.replicate vs.length '"' := by
  induction vs with
  | nil => rfl
  | cons v vs ih =>
    rw [quotedAll_cons, outside_append, outside_quoted (h v (by simp)),
      quotedAfter_quoted (h v (by simp)), ih fun w hw => h w (by simp [hw]), List.length_cons,
      List.replicate_succ, List.singleton_append]

/-! ## Texts that are not cut -/

/-- A text that leaves what follows it outside quotes, and no part of which is
    cut off. -/
def Uncut (s : Text) : Prop :=
  ∀ t, cut false (s ++ t) = (s ++ (cut false t).1, (cut false t).2)

theorem Uncut.append {s t : Text} (hs : Uncut s) (ht : Uncut t) : Uncut (s ++ t) := by
  intro u
  rw [List.append_assoc, hs, ht, List.append_assoc]

theorem Uncut.cut_eq {s : Text} (h : Uncut s) : cut false s = (s, []) := by
  simpa [cut] using h []

theorem uncut_of_inert {s : Text} (h : ∀ c ∈ s, Inert c) : Uncut s :=
  fun t => cut_append_inert h false t

theorem uncut_quoted {v : Text} (h : '"' ∉ v) : Uncut (quoted v) := by
  have key : ∀ t, cut true (v ++ '"' :: t) = (v ++ '"' :: (cut false t).1, (cut false t).2) := by
    intro t
    induction v with
    | nil => exact cut_quote true t
    | cons c v ih =>
      simp only [List.mem_cons, not_or] at h
      rw [List.cons_append, cut_quoted_char (Ne.symm h.1), ih h.2]
      rfl
  intro t
  have : quoted v ++ t = '"' :: (v ++ '"' :: t) := by simp [quoted]
  rw [this, cut_quote, Bool.not_false, key]
  simp [quoted]

theorem uncut_quotedAll {vs : List Text} (h : ∀ v ∈ vs, '"' ∉ v) : Uncut (quotedAll vs) := by
  induction vs with
  | nil => exact fun t => rfl
  | cons v vs ih =>
    exact (uncut_quoted (h v (by simp))).append (ih fun w hw => h w (by simp [hw]))

/-- No operator is cut, although `CONTAINS` has the first letters of both
    keywords in it. -/
theorem uncut_token (op : Operator) : Uncut op.token := by
  intro t
  cases op <;> rfl

theorem inert_of_isNameChar {x : Char} (h : isNameChar x) : Inert x := by
  refine ⟨?_, ?_, ?_⟩ <;> rintro rfl <;> cases h

/-! ## Comparisons -/

theorem notMem_of_mem_token {op : Operator} {x : Char} (h : x ∈ op.token) :
    x ∉ ['(', ')', '$'] := by
  have key : op.token.all (· ∉ ['(', ')', '$']) := by cases op <;> rfl
  simpa using List.all_eq_true.1 key x h

namespace Spells

variable {t : Text} {c : Comparison}

/-- **A comparison from outside**: name and operator, and a quote for each value. -/
theorem outside_eq (h : Spells t c) :
    outside false t =
        c.name ++ c.operator.token ++ List.replicate c.operands.length '"' ∨
      ∃ k l, outside false t =
        c.operator.token ++ List.replicate k '"' ++ c.name ++ List.replicate l '"' := by
  cases h with
  | nameFirst hc =>
    left
    have hn := quote_notMem_name hc.isNameChar_of_mem
    have ht := quote_notMem_token c.operator
    rw [outside_append, outside_append, outside_of_notMem hn, quotedAfter_append,
      quotedAfter_of_notMem hn, quotedAfter_of_notMem ht, outside_of_notMem ht,
      outside_quotedAll hc.quote_notMem]
  | @operatorFirst _ hc vs ws hvs =>
    right
    have hn := quote_notMem_name hc.isNameChar_of_mem
    have ht := quote_notMem_token c.operator
    obtain ⟨hvs', hws'⟩ := hc.quote_notMem_append hvs
    refine ⟨vs.length, ws.length, ?_⟩
    simp only [outside_append, quotedAfter_append, quotedAfter_of_notMem ht, outside_of_notMem ht,
      quotedAfter_quotedAll hvs', outside_quotedAll hvs', quotedAfter_of_notMem hn,
      outside_of_notMem hn, outside_quotedAll hws']

theorem quotedAfter_eq (h : Spells t c) : quotedAfter false t = false := by
  cases h with
  | nameFirst hc =>
    simp [quotedAfter_of_notMem (quote_notMem_name hc.isNameChar_of_mem),
      quotedAfter_of_notMem (quote_notMem_token c.operator), quotedAfter_quotedAll hc.quote_notMem]
  | @operatorFirst _ hc vs ws hvs =>
    obtain ⟨hvs', hws'⟩ := hc.quote_notMem_append hvs
    simp [quotedAfter_of_notMem (quote_notMem_name hc.isNameChar_of_mem),
      quotedAfter_of_notMem (quote_notMem_token c.operator), quotedAfter_quotedAll hvs',
      quotedAfter_quotedAll hws']

theorem uncut (h : Spells t c) : Uncut t := by
  cases h with
  | nameFirst hc =>
    have hn : Uncut c.name := uncut_of_inert fun x hx => inert_of_isNameChar
      (hc.isNameChar_of_mem x hx)
    exact (hn.append (uncut_token _)).append (uncut_quotedAll hc.quote_notMem)
  | @operatorFirst _ hc vs ws hvs =>
    have hn : Uncut c.name := uncut_of_inert fun x hx => inert_of_isNameChar
      (hc.isNameChar_of_mem x hx)
    obtain ⟨hvs', hws'⟩ := hc.quote_notMem_append hvs
    exact (((uncut_token _).append (uncut_quotedAll hvs')).append hn).append (uncut_quotedAll hws')

theorem spellable (h : Spells t c) : c.Spellable := by
  cases h <;> assumption

/-- No parenthesis and no sign of a reference stands outside the quotes. -/
theorem notMem_outside (h : Spells t c) {x : Char} (hx : x ∈ ['(', ')', '$']) :
    x ∉ outside false t := by
  have hq : x ≠ '"' := by rintro rfl; simp at hx
  have hn : x ∉ c.name := by
    intro hx'
    have := h.spellable.isNameChar_of_mem x hx'
    simp only [List.mem_cons, List.not_mem_nil, or_false] at hx
    rcases hx with rfl | rfl | rfl <;> cases this
  have ht : x ∉ c.operator.token := fun hx' => notMem_of_mem_token hx' hx
  have hr : ∀ k, x ∉ List.replicate k '"' := fun k hx' => hq (List.eq_of_mem_replicate hx')
  rcases h.outside_eq with h | ⟨k, l, h⟩ <;> rw [h] <;> simp only [List.mem_append, not_or]
  · exact ⟨⟨hn, ht⟩, hr _⟩
  · exact ⟨⟨⟨ht, hr k⟩, hn⟩, hr l⟩

/-- A comparison has no groups. -/
theorem marks_eq (h : Spells t c) : marks false t = t.map .char :=
  marks_eq_map_char (h.notMem_outside (by simp)) (h.notMem_outside (by simp))

end Spells

end Query

end RecordFilter
