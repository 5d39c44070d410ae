/-
  Proofs.Spelling — the texts that read as comparisons.

  * `Comparison.Spellable`: the comparisons that a text can spell;
  * `Spells`: their spellings, with the operator behind or before the name;
  * `readComparison_eq_ok_iff`: these are the texts that are read, each as the
    comparison that it spells;
  * `Layout`: where the name stands in a spelling, and `spellings_subsingleton`: a
    text spells at most one comparison, in one layout.
-/
import RecordFilter.Proofs.Keywords
import RecordFilter.Query.Comparison

namespace RecordFilter

/-- A comparison whose name is a name, whose values have no quotes in them, and
    with as many values as the operator takes. -/
structure Comparison.Spellable (c : Comparison) : Prop where
  name_ne_nil : c.name ≠ []
  isNameChar_of_mem : ∀ x ∈ c.name, Query.isNameChar x
  quote_notMem : ∀ v ∈ c.operands, '"' ∉ v
  length_operands : c.operands.length = c.operator.arity

theorem Comparison.Spellable.quote_notMem_append {c : Comparison} (hc : c.Spellable)
    {vs ws : List Text} (h : c.operands = vs ++ ws) :
    (∀ v ∈ vs, '"' ∉ v) ∧ ∀ w ∈ ws, '"' ∉ w := by
  have hv := hc.quote_notMem
  rw [h] at hv
  exact List.forall_mem_append.1 hv

namespace Query

/-- Values in quotes, one behind the other. -/
def quotedAll (vs : List Text) : Text := vs.flatMap quoted

@[simp] theorem quotedAll_nil : quotedAll [] = [] := rfl

@[simp] theorem quotedAll_cons (v : Text) (vs : List Text) :
    quotedAll (v :: vs) = quoted v ++ quotedAll vs := rfl

@[simp] theorem quotedAll_append (vs ws : List Text) :
    quotedAll (vs ++ ws) = quotedAll vs ++ quotedAll ws := List.flatMap_append ..

/-- The operator stands right behind the name or right before it.  All values
    stand behind the operator, and behind the name if that comes first. -/
inductive Spells : Text → Comparison → Prop
  | nameFirst {c : Comparison} (hc : c.Spellable) :
      Spells (c.name ++ c.operator.token ++ quotedAll c.operands) c
  | operatorFirst {c : Comparison} (hc : c.Spellable) {vs ws : List Text}
      (h : c.operands = vs ++ ws) :
      Spells (c.operator.token ++ quotedAll vs ++ c.name ++ quotedAll ws) c

/-! ## Quotes -/

theorem pieces_of_notMem {sep : Char} {t : Text} (h : sep ∉ t) : t.pieces sep = [t] := by
  induction t with
  | nil => rfl
  | cons c t ih =>
    simp only [List.mem_cons, not_or] at h
    rw [Text.pieces, if_neg (Ne.symm h.1), ih h.2]

theorem pieces_append_cons {sep : Char} {s : Text} (h : sep ∉ s) (t : Text) :
    Text.pieces sep (s ++ sep :: t) = s :: t.pieces sep := by
  induction s with
  | nil => simp [Text.pieces]
  | cons c s ih =>
    simp only [List.mem_cons, not_or] at h
    rw [List.cons_append, Text.pieces, if_neg (Ne.symm h.1), ih h.2]

/-- Unquoted text, and values with the unquoted text behind each. -/
def assemble (stray : Text) (tail : List (Text × Text)) : Text :=
  stray ++ tail.flatMap fun x => quoted x.1 ++ x.2

theorem assemble_cons (stray v s : Text) (tail : List (Text × Text)) :
    assemble stray ((v, s) :: tail) = stray ++ '"' :: (v ++ '"' :: assemble s tail) := by
  simp [assemble, quoted]

/-- Nothing of it holds a quote. -/
def QuoteFree (stray : Text) (tail : List (Text × Text)) : Prop :=
  '"' ∉ stray ∧ ∀ x ∈ tail, '"' ∉ x.1 ∧ '"' ∉ x.2

theorem values?_assemble {stray : Text} {tail : List (Text × Text)} (h : QuoteFree stray tail) :
    values? ((assemble stray tail).pieces '"') = some (stray, tail) := by
  induction tail generalizing stray with
  | nil => rw [assemble, List.flatMap_nil, List.append_nil, pieces_of_notMem h.1, values?]
  | cons x tail ih =>
    obtain ⟨v, s⟩ := x
    obtain ⟨hs, ht⟩ := h
    obtain ⟨hv, hs'⟩ := ht (v, s) (by simp)
    rw [assemble_cons, pieces_append_cons hs, pieces_append_cons hv, values?,
      ih ⟨hs', fun x hx => ht x (by simp [hx])⟩, Option.map_some]

theorem eq_assemble_of_values? (t : Text) : ∀ {stray : Text} {tail : List (Text × Text)},
    values? (t.pieces '"') = some (stray, tail) →
      t = assemble stray tail ∧ QuoteFree stray tail := by
  induction hl : t.length using Nat.strong_induction_on generalizing t with
  | _ l ih =>
    intro stray tail h
    by_cases ht : '"' ∈ t
    · obtain ⟨s, u, rfl, hs⟩ := List.eq_append_cons_of_mem ht
      rw [pieces_append_cons hs] at h
      by_cases hu : '"' ∈ u
      · obtain ⟨v, w, rfl, hv⟩ := List.eq_append_cons_of_mem hu
        rw [pieces_append_cons hv, values?, Option.map_eq_some_iff] at h
        obtain ⟨⟨s', tail'⟩, h, he⟩ := h
        cases he
        obtain ⟨rfl, hs', ht'⟩ := ih w.length (by subst hl; simp; omega) w rfl h
        refine ⟨(assemble_cons ..).symm, hs, fun x hx => ?_⟩
        rcases List.mem_cons.1 hx with rfl | hx
        · exact ⟨hv, hs'⟩
        · exact ht' x hx
      · rw [pieces_of_notMem hu] at h
        simp [values?] at h
    · rw [pieces_of_notMem ht, values?] at h
      cases h
      exact ⟨by simp [assemble], ht, by simp⟩

/-! ## Names -/

theorem splitName?_eq_none_iff {t : Text} :
    splitName? t = none ↔ ∀ x ∈ t, isNameChar x = false := by
  unfold splitName?
  constructor
  · intro h
    split at h
    · next hd => simpa [List.dropWhile_eq_nil_iff] using hd
    · cases h
  · intro h
    have hd : t.dropWhile (!isNameChar ·) = [] := by simpa [List.dropWhile_eq_nil_iff] using h
    rw [hd]

theorem splitName?_append {before name after : Text} (hb : ∀ x ∈ before, isNameChar x = false)
    (hn : name ≠ []) (hn' : ∀ x ∈ name, isNameChar x)
    (ha : ∀ x ∈ after.head?, isNameChar x = false) :
    splitName? (before ++ name ++ after) = some (before, name, after) := by
  obtain ⟨c, name, rfl⟩ := List.exists_cons_of_ne_nil hn
  have hc : isNameChar c := hn' c (by simp)
  have h₁ : (before ++ c :: name ++ after).dropWhile (!isNameChar ·) = c :: name ++ after := by
    rw [List.append_assoc, List.dropWhile_append_of_pos (by simpa using hb), List.cons_append,
      List.dropWhile_cons_of_neg (by simp [hc])]
  have h₂ : (before ++ c :: name ++ after).takeWhile (!isNameChar ·) = before := by
    rw [List.append_assoc, List.takeWhile_append_of_pos (by simpa using hb), List.cons_append,
      List.takeWhile_cons_of_neg (by simp [hc]), List.append_nil]
  have h₃ : (c :: name ++ after).takeWhile isNameChar = c :: name := by
    rw [List.takeWhile_append_of_pos hn']
    cases after with
    | nil => simp
    | cons d after => simp [ha d (by simp)]
  have h₄ : (c :: name ++ after).dropWhile isNameChar = after := by
    rw [List.dropWhile_append_of_pos hn']
    cases after with
    | nil => simp
    | cons d after => simp [ha d (by simp)]
  rw [splitName?, h₁]
  simp only [List.cons_append] at h₂ h₃ h₄ ⊢
  rw [h₂, h₃, h₄]

theorem eq_append_of_splitName? {t before name after : Text}
    (h : splitName? t = some (before, name, after)) :
    t = before ++ name ++ after ∧ name ≠ [] ∧ ∀ x ∈ name, isNameChar x := by
  unfold splitName? at h
  split at h
  · cases h
  next c rest hd =>
    have hc : isNameChar c := by
      have := List.head?_dropWhile_not (!isNameChar ·) t
      simpa [hd] using this
    simp only [Option.some.injEq, Prod.mk.injEq] at h
    obtain ⟨rfl, rfl, rfl⟩ := h
    refine ⟨?_, ?_, fun x hx => ?_⟩
    · rw [List.append_assoc, List.takeWhile_append_dropWhile, ← hd,
        List.takeWhile_append_dropWhile]
    · simp [hc]
    · exact List.mem_takeWhile_imp hx

theorem takeName_nil_append {ts : List Text} {vs : List Text} {name : Text}
    (hn : name ≠ []) (hn' : ∀ x ∈ name, isNameChar x) (hts : ∀ t ∈ ts, t = [])
    (hvs : ∀ t ∈ vs, t = []) : takeName (ts ++ name :: vs) = (some name, []) := by
  induction ts with
  | nil =>
    have h : splitName? name = some ([], name, []) := by
      have := @splitName?_append [] name [] (by simp) hn hn' (by simp)
      rwa [List.nil_append, List.append_nil] at this
    simp [takeName, h, List.flatten_eq_nil_iff.2 hvs]
  | cons t ts ih =>
    obtain rfl := hts t (by simp)
    have h : splitName? [] = none := splitName?_eq_none_iff.2 (by simp)
    simp [takeName, h, ih fun t ht => hts t (by simp [ht])]

theorem eq_append_of_takeName {ts : List Text} {name : Text}
    (h : takeName ts = (some name, [])) : (name ≠ [] ∧ ∀ x ∈ name, isNameChar x) ∧
      ∃ us vs, ts = us ++ name :: vs ∧ (∀ t ∈ us, t = []) ∧ ∀ t ∈ vs, t = [] := by
  induction ts with
  | nil => simp [takeName] at h
  | cons t ts ih =>
    rw [takeName] at h
    split at h
    · next before n after hs =>
      simp only [Prod.mk.injEq, Option.some.injEq, List.append_eq_nil_iff] at h
      obtain ⟨rfl, ⟨rfl, rfl⟩, hf⟩ := h
      obtain ⟨rfl, hn⟩ := eq_append_of_splitName? hs
      exact ⟨hn, [], ts, by simp, by simp, List.flatten_eq_nil_iff.1 hf⟩
    · simp only [Prod.mk.injEq, List.append_eq_nil_iff] at h
      obtain ⟨h₁, rfl, h₂⟩ := h
      obtain ⟨hn, us, vs, rfl, hus, hvs⟩ := ih (Prod.ext h₁ h₂)
      exact ⟨hn, [] :: us, vs, rfl, by simpa using hus, hvs⟩

/-! ## Comparisons -/

theorem isNameChar_of_mem_token {op : Operator} {x : Char} (h : x ∈ op.token) :
    isNameChar x = false := by
  have key : op.token.all (!isNameChar ·) := by cases op <;> rfl
  simpa using List.all_eq_true.1 key x h

theorem token_ne_nil (op : Operator) : op.token ≠ [] := by cases op <;> decide +kernel

theorem quote_notMem_token (op : Operator) : '"' ∉ op.token := by cases op <;> decide +kernel

theorem quote_notMem_name {name : Text} (h : ∀ x ∈ name, isNameChar x) : '"' ∉ name :=
  fun hq => by cases h _ hq

theorem assemble_of_nil (stray : Text) {tail : List (Text × Text)} (h : ∀ x ∈ tail, x.2 = []) :
    assemble stray tail = stray ++ quotedAll (tail.map (·.1)) := by
  induction tail generalizing stray with
  | nil => rfl
  | cons x tail ih =>
    obtain ⟨v, s⟩ := x
    obtain rfl := h (v, s) (by simp)
    rw [assemble_cons, ih [] fun x hx => h x (by simp [hx])]
    simp [quoted]

@[simp] theorem map_fst_pair (vs : List Text) :
    (vs.map fun v => (v, ([] : Text))).map (·.1) = vs := by
  simp [Function.comp_def]

@[simp] theorem assemble_pair (stray : Text) (vs : List Text) :
    assemble stray (vs.map fun v => (v, [])) = stray ++ quotedAll vs := by
  rw [assemble_of_nil _ (by simp), map_fst_pair]

theorem assemble_append (stray : Text) (ts us : List (Text × Text)) :
    assemble stray (ts ++ us) = assemble stray ts ++ assemble [] us := by
  simp [assemble]

/-- The parts of a text whose unquoted text before the first value is `stray`. -/
theorem readComparison_assemble {stray : Text} {tail : List (Text × Text)} {p : Parts}
    {c : Comparison} (hq : QuoteFree stray tail) (hp : Parts.of? stray tail = some p)
    (ho : p.operator? = some c.operator) (hn : p.name = c.name) (hv : p.values = c.operands)
    (hc : c.Spellable) : readComparison (assemble stray tail) = .ok c := by
  have h : Comparison.of? p.name c.operator p.values = some c := by
    rw [Comparison.of?, hn, hv, if_pos hc.length_operands]
  simp only [readComparison, values?_assemble hq, hp, ho, h]

theorem operator?_of_token {p : Parts} {op : Operator} (ht : p.trailing = [])
    (hb : p.before = [] ∨ p.between = []) (h : p.token = op.token) : p.operator? = some op := by
  rw [Parts.operator?, if_pos ⟨ht, hb⟩, h, Operator.ofToken?_token]

theorem splitName?_token (op : Operator) : splitName? op.token = none :=
  splitName?_eq_none_iff.2 fun _ => isNameChar_of_mem_token

section
variable {c : Comparison} (hc : c.Spellable)
include hc

/-- The name, the operator and all values. -/
theorem readComparison_nameFirst :
    readComparison (c.name ++ c.operator.token ++ quotedAll c.operands) = .ok c := by
  have hs : splitName? (c.name ++ c.operator.token) = some ([], c.name, c.operator.token) :=
    @splitName?_append [] _ _ (by simp) hc.name_ne_nil hc.isNameChar_of_mem fun x hx =>
      isNameChar_of_mem_token (List.mem_of_mem_head? hx)
  rw [← assemble_pair]
  refine readComparison_assemble ⟨?_, by simpa using hc.quote_notMem⟩
    (p := ⟨c.name, [], c.operator.token, [], c.operands⟩) ?_
    (operator?_of_token rfl (Or.inl rfl) (by simp [Parts.token])) rfl rfl hc
  · simp [quote_notMem_name hc.isNameChar_of_mem, quote_notMem_token]
  · simp [Parts.of?, hs, Function.comp_def]

/-- The operator, the name and all values. -/
theorem readComparison_operatorFirst :
    readComparison (c.operator.token ++ c.name ++ quotedAll c.operands) = .ok c := by
  have hs : splitName? (c.operator.token ++ c.name) = some (c.operator.token, c.name, []) := by
    have := @splitName?_append c.operator.token _ [] (fun x => isNameChar_of_mem_token)
      hc.name_ne_nil hc.isNameChar_of_mem (by simp)
    rwa [List.append_nil] at this
  rw [← assemble_pair]
  refine readComparison_assemble ⟨?_, by simpa using hc.quote_notMem⟩
    (p := ⟨c.name, c.operator.token, [], [], c.operands⟩) ?_
    (operator?_of_token rfl (Or.inr rfl) (by simp [Parts.token])) rfl rfl hc
  · simp [quote_notMem_name hc.isNameChar_of_mem, quote_notMem_token]
  · simp [Parts.of?, hs, Function.comp_def]

/-- The operator, some values, the name and the other values. -/
theorem readComparison_nameBehind {us ws : List Text} {v : Text}
    (hvs : c.operands = us.concat v ++ ws) :
    readComparison (c.operator.token ++ quotedAll (us.concat v) ++ c.name ++ quotedAll ws) =
      .ok c := by
  have hv := hc.quote_notMem
  rw [hvs] at hv
  have ht : c.operator.token ++ quotedAll (us.concat v) ++ c.name ++ quotedAll ws =
      assemble c.operator.token
        (us.map (fun v => (v, [])) ++ (v, c.name) :: ws.map fun v => (v, [])) := by
    simp [assemble_append, assemble_cons, quoted]
  rw [ht]
  refine readComparison_assemble ⟨quote_notMem_token _, fun x hx => ?_⟩
    (p := ⟨c.name, c.operator.token, [], [], us.concat v ++ ws⟩) ?_
    (operator?_of_token rfl (Or.inr rfl) (by simp [Parts.token])) rfl hvs.symm hc
  · simp only [List.mem_append, List.mem_map, List.mem_cons] at hx
    rcases hx with ⟨u, hu, rfl⟩ | rfl | ⟨w, hw, rfl⟩
    · exact ⟨hv u (by simp [hu]), by simp⟩
    · exact ⟨hv v (by simp), quote_notMem_name hc.isNameChar_of_mem⟩
    · exact ⟨hv w (by simp [hw]), by simp⟩
  · simp [Parts.of?, splitName?_token, Function.comp_def,
      takeName_nil_append hc.name_ne_nil hc.isNameChar_of_mem]

end

theorem Spells.readComparison_eq {t : Text} {c : Comparison} (h : Spells t c) :
    readComparison t = .ok c := by
  cases h with
  | nameFirst hc => exact readComparison_nameFirst hc
  | @operatorFirst _ hc vs ws hvs =>
    -- values before the name make it the name behind the last of them
    rcases List.eq_nil_or_concat vs with rfl | ⟨us, v, rfl⟩
    · rw [quotedAll_nil, List.append_nil]
      rw [List.nil_append] at hvs
      exact hvs ▸ readComparison_operatorFirst hc
    · exact readComparison_nameBehind hc hvs

/-- The parts of a comparison that is read. -/
theorem exists_parts_of_readComparison {t : Text} {c : Comparison} (h : readComparison t = .ok c) :
    ∃ stray tail p, t = assemble stray tail ∧ QuoteFree stray tail ∧
      Parts.of? stray tail = some p ∧ p.operator? = some c.operator ∧ p.name = c.name ∧
      p.values = c.operands ∧ c.operands.length = c.operator.arity := by
  unfold readComparison at h
  split at h
  · cases h
  next stray tail hv =>
  split at h
  · cases h
  next p hp =>
  split at h
  · cases h
  next op ho =>
  split at h
  · cases h
  next c' hc =>
  cases h
  unfold Comparison.of? at hc
  split_ifs at hc with ha
  cases hc
  obtain ⟨rfl, hq⟩ := eq_assemble_of_values? t hv
  exact ⟨stray, tail, p, rfl, hq, hp, ho, rfl, rfl, ha⟩

/-- The parts of a text, put together again: the name is at the place of the
    first name, and there is no other text behind the first value. -/
theorem eq_of_parts {stray : Text} {tail : List (Text × Text)} {p : Parts}
    (hp : Parts.of? stray tail = some p) (ht : p.trailing = []) :
    (p.name ≠ [] ∧ ∀ x ∈ p.name, isNameChar x) ∧ p.values = tail.map (·.1) ∧
      (assemble stray tail = p.before ++ p.name ++ p.between ++ quotedAll p.values ∨
        p.between = [] ∧ ∃ vs ws, p.values = vs ++ ws ∧
          assemble stray tail = p.before ++ quotedAll vs ++ p.name ++ quotedAll ws) := by
  unfold Parts.of? at hp
  split at hp
  · next before name after hs =>
    cases hp
    obtain ⟨rfl, hn⟩ := eq_append_of_splitName? hs
    have hnil : ∀ x ∈ tail, x.2 = [] := fun x hx =>
      List.flatten_eq_nil_iff.1 ht _ (List.mem_map_of_mem hx)
    exact ⟨hn, rfl, Or.inl (assemble_of_nil _ hnil)⟩
  split at hp
  · next name trailing hs =>
    cases hp
    obtain rfl : trailing = [] := ht
    obtain ⟨hn, us, vs, hts, hus, hvs⟩ := eq_append_of_takeName hs
    obtain ⟨ts, tail', rfl, rfl, h₂⟩ := List.map_eq_append_iff.1 hts
    obtain ⟨⟨v, s⟩, ws, rfl, rfl, rfl⟩ := List.map_eq_cons_iff.1 h₂
    have hus' : ∀ x ∈ ts, x.2 = [] := fun x hx => hus _ (List.mem_map_of_mem hx)
    have hvs' : ∀ x ∈ ws, x.2 = [] := fun x hx => hvs _ (List.mem_map_of_mem hx)
    refine ⟨hn, rfl, Or.inr ⟨rfl, ts.map (·.1) ++ [v], ws.map (·.1), by simp, ?_⟩⟩
    rw [assemble_append, assemble_of_nil _ hus', assemble_cons, assemble_of_nil _ hvs']
    simp [quoted]
  · cases hp

theorem Spells.of_readComparison {t : Text} {c : Comparison} (h : readComparison t = .ok c) :
    Spells t c := by
  obtain ⟨stray, tail, p, rfl, hq, hp, ho, hn, hv, ha⟩ := exists_parts_of_readComparison h
  unfold Parts.operator? at ho
  split_ifs at ho with hpieces
  obtain ⟨htr, hbb⟩ := hpieces
  have htok := Operator.token_of_ofToken? ho
  rw [Parts.token, htr, List.append_nil] at htok
  obtain ⟨⟨hne, hch⟩, hvs, ht⟩ := eq_of_parts hp htr
  rw [hn] at hne hch ht
  have hc : c.Spellable := by
    refine ⟨hne, hch, fun v hv' => ?_, ha⟩
    rw [← hv, hvs] at hv'
    obtain ⟨x, hx, rfl⟩ := List.mem_map.1 hv'
    exact (hq.2 x hx).1
  rw [hv] at ht
  rcases ht with ht | ⟨hb, vs, ws, hvw, ht⟩
  · rw [ht]
    rcases hbb with hb | hb
    · rw [hb, List.nil_append] at htok ⊢
      exact htok ▸ .nameFirst hc
    · rw [hb, List.append_nil] at htok ⊢
      simpa [htok] using Spells.operatorFirst hc (List.nil_append c.operands).symm
  · rw [hb, List.append_nil] at htok
    rw [ht, ← htok]
    exact .operatorFirst hc hvw

/-- **A text reads as the comparison that it spells.** -/
theorem readComparison_eq_ok_iff {t : Text} {c : Comparison} :
    readComparison t = .ok c ↔ Spells t c :=
  ⟨Spells.of_readComparison, Spells.readComparison_eq⟩

/-! ## Layouts -/

/-- Where the name of a comparison stands. -/
inductive Layout where
  | nameFirst
  /-- Behind the operator and that many values. -/
  | nameBehind (count : Nat)
  deriving DecidableEq, Repr

namespace Layout

/-- Whether a comparison has the values that the layout asks for. -/
def Fits (c : Comparison) : Layout → Prop
  | nameFirst => True
  | nameBehind k => k ≤ c.operands.length

/-- The text of a comparison in a layout. -/
def spell (c : Comparison) : Layout → Text
  | nameFirst => c.name ++ c.operator.token ++ quotedAll c.operands
  | nameBehind k =>
    c.operator.token ++ quotedAll (c.operands.take k) ++ c.name ++ quotedAll (c.operands.drop k)

end Layout

theorem spells_iff_layout {t : Text} {c : Comparison} :
    Spells t c ↔ c.Spellable ∧ ∃ l : Layout, l.Fits c ∧ t = l.spell c := by
  constructor
  · rintro (@⟨_, hc⟩ | @⟨_, hc, vs, ws, h⟩)
    · exact ⟨hc, .nameFirst, trivial, rfl⟩
    · refine ⟨hc, .nameBehind vs.length, ?_, ?_⟩
      · simp [Layout.Fits, h]
      · rw [Layout.spell, h, List.take_left, List.drop_left]
  · rintro ⟨hc, l | k, hk, rfl⟩
    · exact .nameFirst hc
    · exact .operatorFirst hc (List.take_append_drop k c.operands).symm

section
variable {c : Comparison} (hc : c.Spellable)
include hc

theorem exists_cons_name : ∃ x name, c.name = x :: name ∧ isNameChar x := by
  obtain ⟨x, name, hx⟩ := List.exists_cons_of_ne_nil hc.name_ne_nil
  exact ⟨x, name, hx, hc.isNameChar_of_mem x (by simp [hx])⟩

/-- The first character tells whether the name is first. -/
theorem spell_nameFirst_ne (k : Nat) :
    Layout.nameFirst.spell c ≠ (Layout.nameBehind k).spell c := by
  obtain ⟨x, name, hx, hname⟩ := exists_cons_name hc
  obtain ⟨y, token, hy⟩ := List.exists_cons_of_ne_nil (token_ne_nil c.operator)
  have hy' : isNameChar y = false := @isNameChar_of_mem_token c.operator y (by simp [hy])
  intro h
  simp only [Layout.spell, hx, hy, List.cons_append, List.cons.injEq] at h
  rw [h.1, hy'] at hname
  cases hname

/-- No value stands both before and behind the name. -/
theorem not_lt_of_spell_eq {j k : Nat} (hk : k ≤ c.operands.length)
    (h : (Layout.nameBehind j).spell c = (Layout.nameBehind k).spell c) : ¬ j < k := by
  intro hjk
  obtain ⟨x, name, hx, hname⟩ := exists_cons_name hc
  have hj : j < c.operands.length := by omega
  obtain ⟨d, rfl⟩ : ∃ d, k = j + (d + 1) := ⟨k - (j + 1), by omega⟩
  have htake : c.operands.take (j + (d + 1)) =
      c.operands.take j ++ c.operands[j] :: (c.operands.drop (j + 1)).take d := by
    rw [List.take_add, List.drop_eq_getElem_cons hj, List.take_succ_cons]
  simp only [Layout.spell, htake, quotedAll_append, quotedAll_cons, hx, quoted, List.append_assoc,
    List.cons_append, List.append_cancel_left_eq, List.cons.injEq] at h
  rw [h.1] at hname
  cases hname

theorem eq_of_spell_eq {l l' : Layout} (hl : l.Fits c) (hl' : l'.Fits c)
    (h : l.spell c = l'.spell c) : l = l' := by
  cases l with
  | nameFirst =>
    cases l' with
    | nameFirst => rfl
    | nameBehind k => exact absurd h (spell_nameFirst_ne hc k)
  | nameBehind j =>
    cases l' with
    | nameFirst => exact absurd h.symm (spell_nameFirst_ne hc j)
    | nameBehind k =>
      have hjk := not_lt_of_spell_eq hc hl' h
      have hkj := not_lt_of_spell_eq hc hl h.symm
      rw [show j = k by omega]

end

/-- The comparisons that a text spells, each with its layout. -/
def spellings (t : Text) : Set (Comparison × Layout) :=
  {x | x.1.Spellable ∧ x.2.Fits x.1 ∧ t = x.2.spell x.1}

/-- **A text spells at most one comparison, in one layout.** -/
theorem spellings_subsingleton (t : Text) : (spellings t).Subsingleton := by
  rintro ⟨c, l⟩ ⟨hc, hl, ht⟩ ⟨c', l'⟩ ⟨hc', hl', ht'⟩
  have hread := readComparison_eq_ok_iff.2 (spells_iff_layout.2 ⟨hc, l, hl, ht⟩)
  have hread' := readComparison_eq_ok_iff.2 (spells_iff_layout.2 ⟨hc', l', hl', ht'⟩)
  obtain rfl : c = c' := Except.ok.inj (hread.symm.trans hread')
  obtain rfl : l = l' := eq_of_spell_eq hc hl hl' (ht.symm.trans ht')
  rfl

/-- **The texts of comparisons.**  A text is read as a comparison iff it has one of
    the spellings of that comparison, and it is a spelling of one comparison in one
    layout only. -/
theorem readComparison_iff_spelled (t : Text) :
    (∀ c, readComparison t = .ok c ↔
      ((c.name ≠ [] ∧ ∀ x ∈ c.name, isNameChar x) ∧ (∀ v ∈ c.operands, '"' ∉ v) ∧
        c.operands.length = c.operator.arity) ∧ ∃ l : Layout, l.Fits c ∧ t = l.spell c) ∧
      (spellings t).Subsingleton := by
  refine ⟨fun c => ?_, spellings_subsingleton t⟩
  rw [readComparison_eq_ok_iff, spells_iff_layout]
  refine and_congr_left fun _ => ⟨fun hc => ?_, fun ⟨⟨hne, hname⟩, hquote, hlen⟩ => ?_⟩
  · exact ⟨⟨hc.name_ne_nil, hc.isNameChar_of_mem⟩, hc.quote_notMem, hc.length_operands⟩
  · exact ⟨hne, hname, hquote, hlen⟩

/-- The name may stand between the values. -/
theorem readComparison_between_values :
    readComparison "BETWEEN\"AND\"visit\"\"".toList =
        .ok ⟨"visit".toList, .between, ["AND".toList, []]⟩ ∧
      spellings "BETWEEN\"AND\"visit\"\"".toList =
        {(⟨"visit".toList, .between, ["AND".toList, []]⟩, .nameBehind 1)} := by
  obtain ⟨hread, hunique⟩ := readComparison_iff_spelled "BETWEEN\"AND\"visit\"\"".toList
  have hc : (⟨"visit".toList, .between, ["AND".toList, []]⟩ : Comparison).Spellable :=
    ⟨by decide, List.all_eq_true.1 (by decide +kernel), by decide +kernel, rfl⟩
  refine ⟨(hread _).2 ⟨⟨⟨hc.name_ne_nil, hc.isNameChar_of_mem⟩, hc.quote_notMem, rfl⟩,
    .nameBehind 1, Nat.le_succ 1, rfl⟩, ?_⟩
  exact hunique.eq_singleton_of_mem ⟨hc, Nat.le_succ 1, rfl⟩

end Query

end RecordFilter
