/-
  Proofs.Cutting — a text has one decomposition at its keywords.

  * `KeywordAt`: the places of the keywords outside quotes;
  * `Decomposes`: pieces and keywords that make up a text, where the keywords are
    all those outside quotes and no others;
  * `cut_induction`: a text is read by keywords and by characters that start none;
  * `decomposes_cut`: cutting a text decomposes it;
  * `Decomposes.unique`: there is no other decomposition;
  * `chain_ofText`: the operands of a block are read off its pieces.
-/
import RecordFilter.Proofs.Operands
import RecordFilter.Proofs.Places

namespace RecordFilter

namespace Query

/-! ## Decompositions -/

/-- The keyword stands outside quotes, with its first letter at the place. -/
def KeywordAt (t : Text) (i : Nat) (c : Combinator) : Prop :=
  OutsideAt t i ∧ c.keyword <+: t.drop i

/-- The text made up of a first piece, and of keywords with the pieces behind them. -/
def interleaved : Text → List (Combinator × Text) → Text
  | s, [] => s
  | s, (c, k) :: rest => s ++ (c.keyword ++ interleaved k rest)

/-- Where the keywords stand in the text made up, if the first piece is at place `i`. -/
def keywordPlaces : Nat → Text → List (Combinator × Text) → List (Nat × Combinator)
  | _, _, [] => []
  | i, s, (c, k) :: rest =>
    (i + s.length, c) :: keywordPlaces (i + s.length + c.keyword.length) k rest

/-- The pieces and the keywords between them make up the text, and the keywords
    are those that stand outside quotes in it. -/
structure Decomposes (t : Text) (d : Text × List (Combinator × Text)) : Prop where
  text_eq : interleaved d.1 d.2 = t
  mem_iff : ∀ i c, (i, c) ∈ keywordPlaces 0 d.1 d.2 ↔ KeywordAt t i c

/-! ## Reading a text -/

theorem keyword_prefix_cons_iff {c : Combinator} {x : Char} {t : Text} :
    c.keyword <+: x :: t ↔
      (c = .and ∧ x = 'A' ∧ ['N', 'D'] <+: t) ∨ (c = .or ∧ x = 'O' ∧ ['R'] <+: t) := by
  cases c <;> simp [Combinator.keyword, List.cons_prefix_cons, eq_comm]

theorem not_keyword_prefix_quote (c : Combinator) (t : Text) : ¬ c.keyword <+: '"' :: t := by
  simp [keyword_prefix_cons_iff]

theorem cut_char {b : Bool} {x : Char} {t : Text}
    (h : b = false → ∀ c : Combinator, ¬ c.keyword <+: x :: t) :
    cut b (x :: t) = (x :: (cut (if x = '"' then !b else b) t).1,
      (cut (if x = '"' then !b else b) t).2) := by
  by_cases hx : x = '"'
  · subst hx
    exact cut_quote b t
  rw [if_neg hx, cut]
  · exact hx
  · rintro u rfl rfl rfl
    exact h rfl .and (List.prefix_append _ u)
  · rintro u rfl rfl rfl
    exact h rfl .or (List.prefix_append _ u)

/-- A text is read by the keywords outside quotes, and by the characters at which
    none starts. -/
theorem cut_induction {motive : Bool → Text → Prop} (nil : ∀ b, motive b [])
    (keyword : ∀ (c : Combinator) t, motive false t → motive false (c.keyword ++ t))
    (char : ∀ b x t, (b = false → ∀ c : Combinator, ¬ c.keyword <+: x :: t) →
      motive (if x = '"' then !b else b) t → motive b (x :: t))
    (b : Bool) (t : Text) : motive b t := by
  fun_induction cut b t with
  | case1 b => exact nil b
  | case2 b t _ _ _ ih => exact char b '"' t (fun _ c => not_keyword_prefix_quote c t) ih
  | case3 t _ _ _ ih => exact keyword .and t ih
  | case4 t _ _ _ ih => exact keyword .or t ih
  | case5 b x t hq hand hor _ _ _ ih =>
    refine char b x t (fun hb c hc => ?_) (by rwa [if_neg hq])
    obtain ⟨-, rfl, u, rfl⟩ | ⟨-, rfl, u, rfl⟩ := keyword_prefix_cons_iff.1 hc
    · exact hand u hb rfl rfl
    · exact hor u hb rfl rfl

/-! ## Cutting decomposes -/

theorem interleaved_cons (x : Char) (s : Text) (rest : List (Combinator × Text)) :
    interleaved (x :: s) rest = x :: interleaved s rest := by
  cases rest <;> rfl

theorem keywordPlaces_cons (i : Nat) (x : Char) (s : Text) (rest : List (Combinator × Text)) :
    keywordPlaces i (x :: s) rest = keywordPlaces (i + 1) s rest := by
  cases rest with
  | nil => rfl
  | cons y rest =>
    rw [keywordPlaces, keywordPlaces, List.length_cons, Nat.add_comm s.length 1, ← Nat.add_assoc]

/-- Cutting loses nothing. -/
theorem interleaved_cut (b : Bool) (t : Text) : interleaved (cut b t).1 (cut b t).2 = t := by
  induction b, t using cut_induction with
  | nil b => rw [cut]; rfl
  | keyword c t ih => rw [cut_keyword, interleaved, ih]; rfl
  | char b x t h ih => rw [cut_char h, interleaved_cons, ih]

/-- The keyword stands at place `j` outside quotes, seen from place `i`: the text is
    what follows there, and `b` tells whether it starts inside quotes. -/
def Ahead (b : Bool) (t : Text) (i j : Nat) (c : Combinator) : Prop :=
  ∃ n, j = i + n ∧ quotedAfter b (t.take n) = false ∧ c.keyword <+: t.drop n

theorem ahead_zero_iff {t : Text} {j : Nat} {c : Combinator} :
    Ahead false t 0 j c ↔ KeywordAt t j c := by
  simp [Ahead, KeywordAt, outsideAt_iff]

theorem not_ahead_nil {b : Bool} {i j : Nat} {c : Combinator} : ¬ Ahead b [] i j c := by
  rintro ⟨n, -, -, h⟩
  cases c <;> simp [Combinator.keyword] at h

/-- A keyword ahead starts here, or is ahead of the next place. -/
theorem ahead_cons_iff {b : Bool} {x : Char} {t : Text} {i j : Nat} {c : Combinator} :
    Ahead b (x :: t) i j c ↔ (j = i ∧ b = false ∧ c.keyword <+: x :: t) ∨
      Ahead (if x = '"' then !b else b) t (i + 1) j c := by
  constructor
  · rintro ⟨_ | n, rfl, hb, hc⟩
    · exact Or.inl ⟨rfl, hb, hc⟩
    · exact Or.inr ⟨n, by omega, hb, hc⟩
  · rintro (⟨rfl, hb, hc⟩ | ⟨n, rfl, hb, hc⟩)
    · exact ⟨0, rfl, hb, hc⟩
    · exact ⟨n + 1, by omega, hb, hc⟩

theorem ahead_keyword_append_iff {c d : Combinator} {t : Text} {i j : Nat} :
    Ahead false (c.keyword ++ t) i j d ↔
      (j = i ∧ d = c) ∨ Ahead false t (i + c.keyword.length) j d := by
  cases c <;> cases d <;> simp [Combinator.keyword, ahead_cons_iff, Nat.add_assoc]

/-- **The keywords at which a text is cut are those ahead.** -/
theorem mem_keywordPlaces_cut_iff (b : Bool) (t : Text) (i j : Nat) (c : Combinator) :
    (j, c) ∈ keywordPlaces i (cut b t).1 (cut b t).2 ↔ Ahead b t i j c := by
  induction b, t using cut_induction generalizing i with
  | nil b => simp [cut, keywordPlaces, not_ahead_nil]
  | keyword d t ih =>
    rw [cut_keyword, keywordPlaces, List.mem_cons, ih, ahead_keyword_append_iff]
    simp
  | char b x t h ih =>
    rw [cut_char h, keywordPlaces_cons, ih, ahead_cons_iff]
    exact (or_iff_right fun hc => h hc.2.1 c hc.2.2).symm

theorem decomposes_cut (t : Text) : Decomposes t (cut false t) where
  text_eq := interleaved_cut false t
  mem_iff i c := (mem_keywordPlaces_cut_iff false t 0 i c).trans ahead_zero_iff

/-! ## No other decomposition -/

theorem le_of_mem_keywordPlaces {i : Nat} {s : Text} {rest : List (Combinator × Text)}
    {x : Nat × Combinator} (h : x ∈ keywordPlaces i s rest) : i + s.length ≤ x.1 := by
  induction rest generalizing i s with
  | nil => cases h
  | cons y rest ih =>
    rcases List.mem_cons.1 h with rfl | h
    · exact le_rfl
    · have := ih h
      omega

/-- The keywords stand one behind the other. -/
theorem pairwise_keywordPlaces (i : Nat) (s : Text) (rest : List (Combinator × Text)) :
    (keywordPlaces i s rest).Pairwise (·.1 < ·.1) := by
  induction rest generalizing i s with
  | nil => exact List.Pairwise.nil
  | cons y rest ih =>
    refine List.Pairwise.cons (fun x hx => ?_) (ih _ _)
    have hpos : 0 < y.1.keyword.length := by cases y.1 <;> decide
    have hle := le_of_mem_keywordPlaces hx
    show i + s.length < x.1
    omega

/-- A text and the places of its keywords determine its pieces. -/
theorem eq_of_interleaved_eq {i : Nat} {s s' : Text} {rest rest' : List (Combinator × Text)}
    (hp : keywordPlaces i s rest = keywordPlaces i s' rest')
    (hj : interleaved s rest = interleaved s' rest') : s = s' ∧ rest = rest' := by
  induction rest generalizing i s s' rest' with
  | nil =>
    cases rest' with
    | nil => exact ⟨hj, rfl⟩
    | cons => cases hp
  | cons y rest ih =>
    cases rest' with
    | nil => cases hp
    | cons y' rest' =>
      obtain ⟨c, k⟩ := y
      obtain ⟨c', k'⟩ := y'
      rw [keywordPlaces, keywordPlaces, List.cons.injEq, Prod.mk.injEq] at hp
      obtain ⟨⟨hl, rfl⟩, hp⟩ := hp
      rw [interleaved, interleaved] at hj
      obtain ⟨rfl, hrest⟩ := List.append_inj hj (by omega)
      obtain ⟨rfl, rfl⟩ := ih hp (List.append_cancel_left hrest)
      exact ⟨rfl, rfl⟩

theorem Decomposes.unique {t : Text} {d d' : Text × List (Combinator × Text)}
    (h : Decomposes t d) (h' : Decomposes t d') : d = d' := by
  have hmem : ∀ x, x ∈ keywordPlaces 0 d.1 d.2 ↔ x ∈ keywordPlaces 0 d'.1 d'.2 :=
    fun x => (h.mem_iff x.1 x.2).trans (h'.mem_iff x.1 x.2).symm
  have hd := pairwise_keywordPlaces 0 d.1 d.2
  have hd' := pairwise_keywordPlaces 0 d'.1 d'.2
  have hne : ∀ x y : Nat × Combinator, x.1 < y.1 → x ≠ y := by
    rintro x _ hlt rfl
    exact lt_irrefl _ hlt
  have hperm := (List.perm_ext_iff_of_nodup (hd.imp (hne _ _)) (hd'.imp (hne _ _))).2 hmem
  have hplaces := hperm.eq_of_pairwise (fun x y _ _ hxy hyx => absurd hxy hyx.asymm) hd hd'
  obtain ⟨h₁, h₂⟩ := eq_of_interleaved_eq hplaces (h.text_eq.trans h'.text_eq.symm)
  exact Prod.ext h₁ h₂

/-! ## Operands -/

theorem Operand.ofText_eq_reference_iff {s : Text} {m : Nat} :
    Operand.ofText s = .reference m ↔ ∃ ds, s = '$' :: ds ∧ ds ≠ [] ∧ (∀ c ∈ ds, c.isDigit) ∧
      Text.value ds = m ∧ m ≤ 2 ^ 64 - 1 := by
  constructor
  · intro h
    have hs : s.head? = some referenceSign := by
      by_contra hs
      rw [Operand.ofText_of_head? hs] at h
      cases h
    obtain ⟨ds, rfl⟩ := List.head?_eq_some_iff.1 hs
    obtain ⟨h₁, h₂, h₃, h₄⟩ :=
      Text.numeral?_eq_some_iff.1 (Operand.ofText_sign_eq_reference_iff.1 h)
    exact ⟨ds, rfl, h₁, h₂, h₄, h₃⟩
  · rintro ⟨ds, rfl, h₁, h₂, h₃, h₄⟩
    exact Operand.ofText_sign_eq_reference_iff.2 (Text.numeral?_eq_some_iff.2 ⟨h₁, h₂, h₄, h₃⟩)

theorem Operand.ofText_eq_comparison_or (s : Text) :
    Operand.ofText s = .comparison s ∨ ∃ m, Operand.ofText s = .reference m := by
  cases h : Operand.ofText s with
  | comparison u => exact Or.inl (by rw [Operand.eq_of_ofText_comparison h])
  | reference m => exact Or.inr ⟨m, rfl⟩

/-- **The operands of a block are the pieces of its one decomposition**, each a
    reference if it is a sign and a numeral, and the text of a comparison as it
    stands otherwise. -/
theorem chain_ofText (t : Text) :
    (∃! d, Decomposes t d) ∧
    (∀ d, Decomposes t d →
      Chain.ofText t = ⟨.ofText d.1, d.2.map fun x => (x.1, .ofText x.2)⟩) ∧
    (∀ s m, Operand.ofText s = .reference m ↔
      ∃ ds, s = '$' :: ds ∧ ds ≠ [] ∧ (∀ c ∈ ds, c.isDigit) ∧
        Text.value ds = m ∧ m ≤ 2 ^ 64 - 1) ∧
    ∀ s, Operand.ofText s = .comparison s ∨ ∃ m, Operand.ofText s = .reference m := by
  refine ⟨⟨cut false t, decomposes_cut t, fun d hd => hd.unique (decomposes_cut t)⟩, ?_,
    fun s m => Operand.ofText_eq_reference_iff, Operand.ofText_eq_comparison_or⟩
  intro d hd
  rw [hd.unique (decomposes_cut t)]
  rfl

example : Chain.ofText "ANDOR$007ORa==\"ANDb".toList =
    ⟨.comparison [], [(.and, .comparison []), (.or, .reference 7),
      (.or, .comparison "a==\"ANDb".toList)]⟩ := by decide +kernel

end Query

end RecordFilter
