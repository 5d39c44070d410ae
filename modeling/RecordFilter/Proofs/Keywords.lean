/-
  Proofs.Keywords — texts with groups, cut at their keywords.

  * `Nest.cut`: the pieces of a nest between its keywords;
  * `cut_blockText`: cutting does not see whether groups or references stand
    between the keywords;
  * `glue_cut`: the pieces with the keywords between them are the nest;
  * `cut_append_keyword`: a keyword outside quotes separates what is cut.
-/
import RecordFilter.Proofs.Numbering
import RecordFilter.Query.Chain

namespace RecordFilter

namespace Query

/-! ## Cutting texts -/

/-- A character that neither opens quotes nor starts a keyword. -/
def Inert (c : Char) : Prop := c ≠ '"' ∧ c ≠ 'A' ∧ c ≠ 'O'

instance : DecidablePred Inert := fun c =>
  inferInstanceAs (Decidable (c ≠ '"' ∧ c ≠ 'A' ∧ c ≠ 'O'))

theorem cut_inert {c : Char} (hc : Inert c) (b : Bool) (t : Text) :
    cut b (c :: t) = (c :: (cut b t).1, (cut b t).2) := by
  obtain ⟨h₁, h₂, h₃⟩ := hc
  rw [cut] <;> simp_all

theorem cut_append_inert {s : Text} (hs : ∀ c ∈ s, Inert c) (b : Bool) (t : Text) :
    cut b (s ++ t) = (s ++ (cut b t).1, (cut b t).2) := by
  induction s with
  | nil => rfl
  | cons c s ih =>
    rw [List.cons_append, cut_inert (hs c (by simp)), ih fun x hx => hs x (by simp [hx])]
    rfl

theorem cut_quote (b : Bool) (t : Text) :
    cut b ('"' :: t) = ('"' :: (cut (!b) t).1, (cut (!b) t).2) := by
  rw [cut]

theorem cut_quoted_char {c : Char} (hc : c ≠ '"') (t : Text) :
    cut true (c :: t) = (c :: (cut true t).1, (cut true t).2) := by
  rw [cut] <;> simp_all

theorem cut_keyword (c : Combinator) (t : Text) :
    cut false (c.keyword ++ t) = ([], (c, (cut false t).1) :: (cut false t).2) := by
  cases c <;> rfl

namespace Nest

variable {α : Type}

/-! ## Cutting nests -/

/-- The nest cut at its keywords outside quotes, as texts are cut. -/
def cut : Bool → Nest α → Nest α × List (Combinator × Nest α)
  | _, done => (done, [])
  | quoted, char '"' r => (char '"' (r.cut (!quoted)).1, (r.cut (!quoted)).2)
  | false, char 'A' (char 'N' (char 'D' r)) => (done, (.and, (r.cut false).1) :: (r.cut false).2)
  | false, char 'O' (char 'R' r) => (done, (.or, (r.cut false).1) :: (r.cut false).2)
  | quoted, char c r => (char c (r.cut quoted).1, (r.cut quoted).2)
  | quoted, group a i r => (group a i (r.cut quoted).1, (r.cut quoted).2)

/-- The pieces between the keywords. -/
def pieces (n : Nest α) : List (Nest α) := (n.cut false).1 :: (n.cut false).2.map (·.2)

/-- Pieces with keywords between them. -/
def glue : Nest α → List (Combinator × Nest α) → Nest α
  | s, [] => s
  | s, (c, k) :: rest => s.append ((ofText c.keyword).append (glue k rest))

theorem glue_char (c : Char) (s : Nest α) (rest : List (Combinator × Nest α)) :
    glue (char c s) rest = char c (glue s rest) := by
  cases rest <;> rfl

theorem glue_group (a : α) (i s : Nest α) (rest : List (Combinator × Nest α)) :
    glue (group a i s) rest = group a i (glue s rest) := by
  cases rest <;> rfl

/-- **Cutting loses nothing.** -/
theorem glue_cut (b : Bool) (n : Nest α) : glue (n.cut b).1 (n.cut b).2 = n := by
  fun_induction cut b n with
  | case1 => rfl
  | case2 b r ih => rw [glue_char, ih]
  | case3 r ih => rw [glue, ih]; rfl
  | case4 r ih => rw [glue, ih]; rfl
  | case5 b c r _ _ _ ih => rw [glue_char, ih]
  | case6 b a i r ih => rw [glue_group, ih]

theorem map_eq_char {f : α → β} {n : Nest α} {c : Char} {k : Nest β} (h : n.map f = char c k) :
    ∃ r, n = char c r ∧ r.map f = k := by
  cases n with
  | done => cases h
  | char d r => cases h; exact ⟨r, rfl, rfl⟩
  | group => cases h

/-- Cutting does not look at the labels. -/
theorem cut_map (f : α → β) (b : Bool) (n : Nest α) :
    (n.map f).cut b = ((n.cut b).1.map f, (n.cut b).2.map fun x => (x.1, x.2.map f)) := by
  fun_induction cut b n with
  | case1 => rfl
  | case2 b r ih => simp only [map, cut, ih]
  | case3 r ih => simp only [map, cut, ih, List.map_cons]
  | case4 r ih => simp only [map, cut, ih, List.map_cons]
  | case5 b c r h₁ h₂ h₃ ih =>
    rw [map, cut, ih]
    · rfl
    · exact h₁
    · intro t hb hc hr
      obtain ⟨r', rfl, hr'⟩ := map_eq_char hr
      obtain ⟨r'', rfl, -⟩ := map_eq_char hr'
      exact h₂ r'' hb hc rfl
    · intro t hb hc hr
      obtain ⟨r', rfl, -⟩ := map_eq_char hr
      exact h₃ r' hb hc rfl
  | case6 b a i r ih => simp only [map, cut, ih]

theorem cut_eq_of_bare {n m : Nest α} (hb : n.bare = m.bare) (h : n.cut false = (n, [])) :
    m.cut false = (m, []) := by
  have hcut : (m.cut false).2 = [] := by
    have hn := cut_map (fun _ => ()) false n
    have hm := cut_map (fun _ => ()) false m
    rw [bare, bare] at hb
    rw [← hb, hn, h, Prod.mk.injEq] at hm
    exact List.map_eq_nil_iff.1 hm.2.symm
  have hglue := glue_cut false m
  rw [hcut, glue] at hglue
  exact Prod.ext hglue hcut

theorem inert_reference {i : Nat} {c : Char} (h : c ∈ reference i) : Inert c := by
  rcases List.mem_cons.1 h with rfl | h
  · decide
  · have hd : c.isDigit := Nat.isDigit_of_mem_toDigits (by decide) (by decide) h
    refine ⟨?_, ?_, ?_⟩ <;> rintro rfl <;> cases hd

theorem quotedAfter_reference (b : Bool) (i : Nat) : quotedAfter b (reference i) = b :=
  quotedAfter_of_notMem fun h => (inert_reference h).1 rfl

theorem blockText_eq_cons {n : Nest Nat} {c : Char} {t : Text} (hc : c ≠ referenceSign)
    (h : n.blockText = c :: t) : ∃ r, n = char c r ∧ r.blockText = t := by
  cases n with
  | done => cases h
  | char d r => cases h; exact ⟨r, rfl, rfl⟩
  | group i m r =>
    simp only [blockText, reference, List.cons_append, List.cons.injEq] at h
    exact absurd h.1.symm hc

/-- **A block text is cut where the nest is cut.** -/
theorem cut_blockText (b : Bool) (n : Nest Nat) :
    Query.cut b n.blockText =
      ((n.cut b).1.blockText, (n.cut b).2.map fun x => (x.1, x.2.blockText)) := by
  fun_induction cut b n with
  | case1 b => rfl
  | case2 b r ih => rw [blockText, cut_quote, ih]; rfl
  | case3 r ih =>
    have := cut_keyword .and r.blockText
    simp only [blockText, List.map_cons]
    rw [ih] at this
    exact this
  | case4 r ih =>
    have := cut_keyword .or r.blockText
    simp only [blockText, List.map_cons]
    rw [ih] at this
    exact this
  | case5 b c r h₁ h₂ h₃ ih =>
    rw [blockText, Query.cut, ih]
    -- a keyword of the text is one of the nest, as there is no letter in a reference
    · rfl
    · exact h₁
    · intro t hb hc hr
      obtain ⟨r', rfl, hr'⟩ := blockText_eq_cons (by decide) hr
      obtain ⟨r'', rfl, -⟩ := blockText_eq_cons (by decide) hr'
      exact h₂ r'' hb hc rfl
    · intro t hb hc hr
      obtain ⟨r', rfl, -⟩ := blockText_eq_cons (by decide) hr
      exact h₃ r' hb hc rfl
  | case6 b i m r ih =>
    rw [blockText, cut_append_inert (fun c => inert_reference), ih]; rfl

theorem cut_ofText_keyword (c : Combinator) (n : Nest α) :
    ((ofText c.keyword).append n).cut false = (done, (c, (n.cut false).1) :: (n.cut false).2) := by
  cases c <;> simp [Combinator.keyword, ofText, append, cut]

/-- **A keyword outside quotes separates what is cut**, whatever stands on its
    two sides: no end of a text and beginning of a keyword make another keyword. -/
theorem cut_append_keyword (c : Combinator) (k : Nest α) (b : Bool) (n : Nest α)
    (hn : n.Regular b) (h : quotedAfter b n.text = false) :
    (n.append ((ofText c.keyword).append k)).cut b =
      ((n.cut b).1, (n.cut b).2 ++ (c, (k.cut false).1) :: (k.cut false).2) := by
  fun_induction cut b n with
  | case1 b =>
    cases h
    exact cut_ofText_keyword c k
  | case2 b r ih =>
    simp only [text_char, quotedAfter, if_true] at h
    simp only [append, cut, ih hn.2 h]
  | case3 r ih =>
    simp only [append, cut, ih hn.2.2.2 (by simpa [quotedAfter] using h), List.cons_append]
  | case4 r ih =>
    simp only [append, cut, ih hn.2.2 (by simpa [quotedAfter] using h), List.cons_append]
  | case5 b x r h₁ h₂ h₃ ih =>
    rw [text_char, quotedAfter, if_neg h₁] at h
    have hr := hn.2
    rw [if_neg h₁] at hr
    rw [append, cut, ih hr h]
    -- what starts no keyword at the end of `n` does not start one with `c` behind it
    · exact h₁
    · intro t hb hx hr
      rcases r with _ | ⟨y, _ | ⟨z, r⟩ | _⟩ | _
      · cases c <;> simp [append, ofText, Combinator.keyword] at hr
      · cases c <;> simp [append, ofText, Combinator.keyword] at hr
      · simp only [append, char.injEq] at hr
        exact h₂ r hb hx (by rw [hr.1, hr.2.1])
      · simp [append] at hr
      · simp [append] at hr
    · intro t hb hx hr
      rcases r with _ | ⟨y, r⟩ | _
      · cases c <;> simp [append, ofText, Combinator.keyword] at hr
      · simp only [append, char.injEq] at hr
        exact h₃ r hb hx (by rw [hr.1])
      · simp [append] at hr
  | case6 b a i r ih =>
    obtain ⟨rfl, -, hi, hr⟩ := hn
    have h' : quotedAfter false r.text = false := by simpa [quotedAfter, hi] using h
    simp only [append, cut, ih hr h']

/-! ## Pieces -/

theorem pieces_append_keyword {c : Combinator} {n k : Nest α} (hn : n.Regular false)
    (h : quotedAfter false n.text = false) :
    (n.append ((ofText c.keyword).append k)).pieces = n.pieces ++ k.pieces := by
  simp [pieces, cut_append_keyword c k false n hn h]

theorem kids_glue (s : Nest α) (rest : List (Combinator × Nest α)) :
    (glue s rest).kids = s.kids ++ (rest.map (·.2)).flatMap kids := by
  induction rest generalizing s with
  | nil => simp [glue]
  | cons x rest ih => simp [glue, ih]

theorem groups_glue (s : Nest Nat) (rest : List (Combinator × Nest Nat)) :
    (glue s rest).groups = s.groups ++ (rest.map (·.2)).flatMap groups := by
  induction rest generalizing s with
  | nil => simp [glue]
  | cons x rest ih => simp [glue, ih]

/-- The direct groups are those of the pieces. -/
theorem flatMap_kids_pieces (n : Nest α) : n.pieces.flatMap kids = n.kids := by
  conv_rhs => rw [← glue_cut false n, kids_glue]
  rfl

theorem mem_kids_of_mem_pieces {n s : Nest α} (hs : s ∈ n.pieces) {a : α} (ha : a ∈ s.kids) :
    a ∈ n.kids := by
  rw [← flatMap_kids_pieces]
  exact List.mem_flatMap_of_mem hs ha

theorem groups_subset_of_mem_pieces {n s : Nest Nat} (h : s ∈ n.pieces) :
    s.groups ⊆ n.groups := by
  have hn : n.groups = n.pieces.flatMap groups := by
    conv_lhs => rw [← glue_cut false n, groups_glue]
    rfl
  intro g hg
  rw [hn]
  exact List.mem_flatMap_of_mem h hg

theorem toMarks_infix_of_mem_pieces {n s : Nest α} (h : s ∈ n.pieces) :
    s.toMarks <:+: n.toMarks := by
  have key : ∀ (rest : List (Combinator × Nest α)) (s₀ : Nest α),
      s ∈ s₀ :: rest.map (·.2) → s.toMarks <:+: (glue s₀ rest).toMarks := by
    intro rest
    induction rest with
    | nil =>
      intro s₀ hs
      rw [List.mem_singleton.1 hs]
      exact List.infix_rfl
    | cons x rest ih =>
      intro s₀ hs
      rw [glue, toMarks_append, toMarks_append]
      rcases List.mem_cons.1 hs with rfl | hs
      · exact (List.prefix_append _ _).isInfix
      · exact ((ih x.2 hs).trans (List.suffix_append _ _).isInfix).trans
          (List.suffix_append _ _).isInfix
  simpa [glue_cut] using key _ _ h

theorem regular_cut {b : Bool} {n : Nest α} (h : n.Regular b) :
    (n.cut b).1.Regular b ∧ ∀ x ∈ (n.cut b).2, x.2.Regular false := by
  fun_induction cut b n with
  | case1 => exact ⟨trivial, by simp⟩
  | case2 b r ih => exact ⟨⟨h.1, (ih h.2).1⟩, (ih h.2).2⟩
  | case3 r ih =>
    have hr : r.Regular false := h.2.2.2
    exact ⟨trivial, by simpa using ih hr⟩
  | case4 r ih =>
    have hr : r.Regular false := h.2.2
    exact ⟨trivial, by simpa using ih hr⟩
  | case5 b c r h₁ _ _ ih =>
    have hr := h.2
    rw [if_neg h₁] at hr
    exact ⟨⟨h.1, by rw [if_neg h₁]; exact (ih hr).1⟩, (ih hr).2⟩
  | case6 b a i r ih =>
    obtain ⟨rfl, hi, hq, hr⟩ := h
    exact ⟨⟨rfl, hi, hq, (ih hr).1⟩, (ih hr).2⟩

theorem regular_of_mem_pieces {n s : Nest α} (h : n.Regular false) (hs : s ∈ n.pieces) :
    s.Regular false := by
  rcases List.mem_cons.1 hs with rfl | hs
  · exact (regular_cut h).1
  · obtain ⟨x, hx, rfl⟩ := List.mem_map.1 hs
    exact (regular_cut h).2 x hx

end Nest

end Query

end RecordFilter
