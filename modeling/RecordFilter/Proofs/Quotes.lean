/-
  Proofs.Quotes — the quotes of a query, of its blocks and of their operands.

  A flag is turned at every quote three times: over the query to find its groups, over a
  block to find its keywords, and over an operand to find its values.  Each time it starts
  down, although the text was taken out of the middle of a longer one.

  * `PairedButLast`: a text taken apart so that at most the last part leaves a quote open;
  * `Carries`: the flag over the pieces of a text, and `carries_cut`: where a text is cut the
    flag is down;
  * `quotedAfter_blockText`: taking the groups out of a text does not change its flag;
  * `pairedButLast_operands`, `pairedButLast_blocks`, `pairedButLast_of_extract`: the operands
    of a block, the blocks of a query, and the operands of a query;
  * `LeftOpen`: an open quote is the first thing wrong with a query, and
    `compile_eq_openQuote_iff`: such queries are refused for it;
  * `quotes_consistent`: all of this together.
-/
import RecordFilter.Proofs.Cutting
import RecordFilter.Proofs.Faults
import RecordFilter.Proofs.Grammar

namespace RecordFilter

namespace Query

/-! ## Texts taken apart -/

/-- The quotes pair up in each of the texts `init`, and one in `last` is left over exactly
    if one in `t` is. -/
structure PairedButLast (init : List Text) (last t : Text) : Prop where
  even_count : ∀ s ∈ init, Even (s.count '"')
  odd_count_iff : Odd (last.count '"') ↔ Odd (t.count '"')

theorem PairedButLast.of_quotedAfter {init : List Text} {last t : Text}
    (hinit : ∀ s ∈ init, quotedAfter false s = false)
    (hlast : quotedAfter false last = quotedAfter false t) : PairedButLast init last t where
  even_count s hs := quotedAfter_eq_false_iff.1 (hinit s hs)
  odd_count_iff := by rw [← quotedAfter_eq_true_iff, ← quotedAfter_eq_true_iff, hlast]

/-! ## Pieces of a text -/

/-- A flag that is turned at every quote goes through the pieces of a text.  It is down behind
    each of them but the last, so it is as if every piece but the first were read by itself. -/
inductive Carries : Bool → List Text → Bool → Prop
  | last (b : Bool) (s : Text) : Carries b [s] (quotedAfter b s)
  | cons {b e : Bool} {s : Text} {ss : List Text} (hs : quotedAfter b s = false)
      (hss : Carries false ss e) : Carries b (s :: ss) e

namespace Carries

variable {b e : Bool} {s : Text} {ss : List Text}

theorem char {c : Char} (h : Carries (if c = '"' then !b else b) (s :: ss) e) :
    Carries b ((c :: s) :: ss) e := by
  cases h with
  | last => exact .last b (c :: s)
  | cons hs hss => exact .cons hs hss

/-- The last piece leaves the flag as the whole does, and no other one leaves it up. -/
theorem exists_concat (h : Carries false ss e) : ∃ init last, ss = init ++ [last] ∧
    (∀ s ∈ init, quotedAfter false s = false) ∧ quotedAfter false last = e := by
  -- every piece but the first starts with the flag down, so the first has to as well
  generalize hb : false = b at h
  induction h with
  | last b s =>
    subst hb
    exact ⟨[], s, rfl, by simp, rfl⟩
  | cons hs _ ih =>
    subst hb
    obtain ⟨init, last, rfl, hinit, hlast⟩ := ih rfl
    exact ⟨_ :: init, last, rfl, List.forall_mem_cons.2 ⟨hs, hinit⟩, hlast⟩

end Carries

/-- **A text is cut where the flag is down**, and whole it leaves the flag as its last piece
    does. -/
theorem carries_cut (b : Bool) (t : Text) :
    Carries b ((cut b t).1 :: (cut b t).2.map Prod.snd) (quotedAfter b t) := by
  induction b, t using cut_induction with
  | nil b =>
    rw [cut]
    exact .last b []
  | keyword c t ih =>
    rw [cut_keyword, quotedAfter_append, quotedAfter_keyword]
    exact .cons rfl ih
  | char b c t h ih =>
    rw [cut_char h]
    exact ih.char

/-! ## Operands of a block -/

theorem Operand.count_text_ofText (s : Text) :
    (Operand.ofText s).text.count '"' = s.count '"' := by
  rcases Operand.ofText_eq_comparison_or s with h | ⟨m, h⟩
  · rw [h, text]
  · obtain ⟨ds, rfl, -, hds, -⟩ := Operand.ofText_eq_reference_iff.1 h
    have hquote : '"' ∉ ds := fun hq => by cases hds _ hq
    have hreference : '"' ∉ Query.reference m := fun hq => (Nest.inert_reference hq).1 rfl
    rw [h, text, List.count_eq_zero_of_not_mem hreference,
      List.count_cons_of_ne (by decide), List.count_eq_zero_of_not_mem hquote]

theorem Chain.operands_ofText (t : Text) : (Chain.ofText t).operands =
    ((cut false t).1 :: (cut false t).2.map Prod.snd).map Operand.ofText := by
  simp [Chain.ofText, Chain.operands]

/-- **Only the last operand of a block can leave a quote open.** -/
theorem pairedButLast_operands (t : Text) : ∃ os o, (Chain.ofText t).operands = os ++ [o] ∧
    PairedButLast (os.map Operand.text) o.text t := by
  obtain ⟨init, last, hpieces, hinit, hlast⟩ := (carries_cut false t).exists_concat
  have hpaired : PairedButLast init last t := .of_quotedAfter hinit hlast
  refine ⟨init.map Operand.ofText, Operand.ofText last, ?_, ?_, ?_⟩
  · rw [Chain.operands_ofText, hpieces, List.map_append, List.map_singleton]
  · simpa [Operand.count_text_ofText] using hpaired.even_count
  · rw [Operand.count_text_ofText]
    exact hpaired.odd_count_iff

theorem even_count_of_mem_operands {t : Text} (h : Even (t.count '"')) {o : Operand}
    (ho : o ∈ (Chain.ofText t).operands) : Even (o.text.count '"') := by
  obtain ⟨os, last, hos, hpaired⟩ := pairedButLast_operands t
  rw [hos, List.mem_append, List.mem_singleton] at ho
  rcases ho with ho | rfl
  · exact hpaired.even_count _ (List.mem_map_of_mem ho)
  · rw [← Nat.not_odd_iff_even, hpaired.odd_count_iff, Nat.not_odd_iff_even]
    exact h

/-! ## Blocks of a query -/

namespace Nest

/-- **A reference stands for its group as far as quotes are concerned**, as groups open and
    close outside quotes. -/
theorem quotedAfter_blockText {n : Nest Nat} {b : Bool} (h : n.Regular b) :
    quotedAfter b n.blockText = quotedAfter b n.text := by
  induction n generalizing b with
  | done => rfl
  | char c r ih => exact ih h.2
  | group i m r _ ih =>
    obtain ⟨rfl, -, hm, hr⟩ := h
    rw [blockText, quotedAfter_append, quotedAfter_reference, ih hr]
    simp [quotedAfter, hm]

end Nest

/-- **Only the last block of a query can leave a quote open.** -/
theorem pairedButLast_blocks {q : Text} {blocks : List Text} (h : extract q = .ok blocks) :
    ∃ bs b, blocks = bs ++ [b] ∧ PairedButLast bs b q := by
  obtain ⟨hb, rfl⟩ := extract_eq_ok_iff.1 h
  have hregular : (nestOf q).Regular false := (Nest.regular_of_toMarks hb.toMarks_nestOf).2
  obtain ⟨ms, hlayers, hperm⟩ := (numbered_nestOf q).exists_layers
  refine ⟨ms.map Nest.blockText, (nestOf q).blockText, ?_, .of_quotedAfter ?_ ?_⟩
  · rw [Nest.blocks_eq, hlayers, List.map_append, List.map_singleton]
  · intro s hs
    obtain ⟨m, hm, rfl⟩ := List.mem_map.1 hs
    obtain ⟨g, hg, rfl⟩ := List.mem_map.1 (hperm.mem_iff.1 hm)
    obtain ⟨hinside, hclosed⟩ := Nest.closed_of_mem_groups hregular hg
    rw [Nest.quotedAfter_blockText hinside, hclosed]
  · rw [Nest.quotedAfter_blockText hregular, hb.text_nestOf]

/-- **Only the last operand of the last block can leave a quote open.** -/
theorem pairedButLast_of_extract {q : Text} {blocks : List Text} (h : extract q = .ok blocks) :
    ∃ before os o, operandsOf blocks = before ++ [os ++ [o]] ∧
      PairedButLast ((before.flatten ++ os).map Operand.text) o.text q := by
  obtain ⟨bs, b, rfl, hblocks⟩ := pairedButLast_blocks h
  obtain ⟨os, o, hos, hoperands⟩ := pairedButLast_operands b
  refine ⟨operandsOf bs, os, o, by simp [operandsOf, hos], ?_,
    hoperands.odd_count_iff.trans hblocks.odd_count_iff⟩
  rw [List.map_append, List.forall_mem_append]
  refine ⟨fun s hs => ?_, hoperands.even_count⟩
  obtain ⟨x, hx, rfl⟩ := List.mem_map.1 hs
  obtain ⟨xs, hxs, hx⟩ := List.mem_flatten.1 hx
  obtain ⟨block, hblock, rfl⟩ := List.mem_map.1 hxs
  exact even_count_of_mem_operands (hblocks.even_count block hblock) hx

/-! ## Refusals -/

/-- What compiles has no quote left open. -/
theorem even_count_of_compile {q : Text} {p : Predicate} (h : compile q = .ok p) :
    Even (q.count '"') := by
  obtain ⟨-, hb, hreads, -⟩ := compile_eq_ok_iff.1 h
  have hclosed := hreads.regular.2
  rw [hb.text_nestOf] at hclosed
  exact quotedAfter_eq_false_iff.1 hclosed

theorem readComparison_eq_openQuote_iff {t : Text} :
    readComparison t = .error .openQuote ↔ Odd (t.count '"') := by
  constructor
  · intro h
    cases hasFault_of_readComparison h with
    | openQuote hodd => exact hodd
  · exact readComparison_of_odd

/-- Nothing but building finds a comparison that cannot be read. -/
theorem resolveBlocks_ne_invalidComparison {q t : Text} {fault : Fault} :
    resolveBlocks q ≠ .error (.invalidComparison t fault) := by
  intro h
  rcases error_of_resolveBlocks h with h | ⟨c, p, h⟩ | ⟨p, h⟩ <;> cases h

/-- An open quote is the first thing wrong with a query: the comparison that it is in is the
    last operand of the last block, what stands before is sound, and the comparisons are not
    too many. -/
def LeftOpen (q t : Text) : Prop :=
  Odd (q.count '"') ∧ ∃ blocks, resolveBlocks q = .ok blocks ∧ ∃ before os,
    operandsOf blocks = before ++ [os ++ [.comparison t]] ∧ Sound 0 [] (before ++ [os]) ∧
      comparisonTotal (operandsOf blocks) ≤ maxComparisons

/-- An operand that leaves a quote open is the last one of the last block. -/
theorem PairedButLast.eq_of_odd {before before' after : List (List Operand)}
    {os os₁ os₂ : List Operand} {o o' : Operand} {q : Text}
    (h : PairedButLast ((before.flatten ++ os).map Operand.text) o.text q)
    (hodd : Odd (o'.text.count '"'))
    (heq : before ++ [os ++ [o]] = before' ++ (os₁ ++ o' :: os₂) :: after) :
    before = before' ∧ os = os₁ ∧ o = o' ∧ os₂ = [] ∧ after = [] := by
  have hnot : o' ∉ before.flatten ++ os := fun hmem =>
    Nat.not_even_iff_odd.2 hodd (h.even_count _ (List.mem_map_of_mem hmem))
  rw [List.mem_append, not_or] at hnot
  have hblock : os₁ ++ o' :: os₂ ∉ before := fun hmem =>
    hnot.1 (List.mem_flatten.2 ⟨_, hmem, by simp⟩)
  obtain ⟨rfl, hos, rfl⟩ := (List.append_cons_inj_of_notMem hblock List.not_mem_nil).1 heq
  obtain ⟨rfl, rfl, rfl⟩ := (List.append_cons_inj_of_notMem hnot.2 List.not_mem_nil).1 hos
  exact ⟨rfl, rfl, rfl, rfl, rfl⟩

/-- **When an open quote is what a query is refused for.** -/
theorem compile_eq_openQuote_iff {q t : Text} :
    compile q = .error (.invalidComparison t .openQuote) ↔ LeftOpen q t := by
  rw [compile, LeftOpen]
  cases hr : resolveBlocks q with
  | error e =>
    constructor
    · intro h
      cases h
      exact absurd hr resolveBlocks_ne_invalidComparison
    · rintro ⟨-, blocks, h, -⟩
      cases h
  | ok blocks =>
    obtain ⟨-, -, hb, rfl⟩ := resolveBlocks_eq_ok_iff.1 hr
    obtain ⟨before, os, o, hos, hpaired⟩ :=
      pairedButLast_of_extract (extract_eq_ok_iff.2 ⟨hb, rfl⟩)
    show build (nestOf q).blocks = .error (.invalidComparison t .openQuote) ↔ _
    rw [build_eq_error_iff (nestOf q).blocks_ne_nil,
      faultOf_eq_fault_iff List.nodup_nil (Nat.zero_le _) (by simp)]
    simp only [Except.ok.injEq, exists_eq_left', Nat.zero_add, List.nil_append,
      Operand.fault?_eq_invalid_iff, readComparison_eq_openQuote_iff]
    constructor
    · rintro ⟨before', os₁, o', os₂, after, heq, hsound, hle, rfl, hodd⟩
      -- an operand before the last one would have its quotes in pairs
      have hodd' : Odd ((Operand.comparison t).text.count '"') := hodd
      obtain ⟨rfl, rfl, rfl, rfl, rfl⟩ := hpaired.eq_of_odd hodd' (hos.symm.trans heq)
      exact ⟨hpaired.odd_count_iff.1 hodd, before, os, heq, hsound, heq ▸ hle⟩
    · rintro ⟨hodd, before', os', heq, hsound, hle⟩
      obtain ⟨rfl, hlast⟩ := List.append_singleton_inj.1 (hos.symm.trans heq)
      obtain ⟨rfl, rfl⟩ := List.append_singleton_inj.1 hlast
      exact ⟨before, os, _, [], [], heq, hsound, heq ▸ hle, rfl, hpaired.odd_count_iff.2 hodd⟩

/-- **The flags over a query, its blocks and their operands agree.**  Quotes pair up in every
    block and in every operand but the last operand of the last block, which leaves one open
    exactly if the query does.  A query that leaves one open is refused, and an open quote is
    reported of such a query only and of that operand only: where nothing before it is wrong. -/
theorem quotes_consistent (q : Text) :
    (∀ blocks, extract q = .ok blocks →
      (∃ bs b, blocks = bs ++ [b] ∧ PairedButLast bs b q) ∧
      ∃ before os o, operandsOf blocks = before ++ [os ++ [o]] ∧
        PairedButLast ((before.flatten ++ os).map Operand.text) o.text q) ∧
    (Odd (q.count '"') → ∃ e, compile q = .error e) ∧
    ∀ t, compile q = .error (.invalidComparison t .openQuote) ↔ LeftOpen q t := by
  refine ⟨fun blocks h => ⟨pairedButLast_blocks h, pairedButLast_of_extract h⟩, fun hodd => ?_,
    fun t => compile_eq_openQuote_iff⟩
  cases h : compile q with
  | ok p => exact absurd (even_count_of_compile h) (Nat.not_even_iff_odd.2 hodd)
  | error e => exact ⟨e, rfl⟩

/-- Behind an open quote there are no groups and no keywords. -/
theorem quotes_behind_open_quote :
    let q := "(a~)ANDb==\"x)OR(c~".toList
    extract q = .ok ["a~".toList, "$0ANDb==\"x)OR(c~".toList] ∧
      (∃ bs b, ["a~".toList, "$0ANDb==\"x)OR(c~".toList] = bs ++ [b] ∧ PairedButLast bs b q) ∧
      compile q = .error (.invalidComparison "b==\"x)OR(c~".toList .openQuote) ∧
      LeftOpen q "b==\"x)OR(c~".toList := by
  have hblocks : extract "(a~)ANDb==\"x)OR(c~".toList =
      .ok ["a~".toList, "$0ANDb==\"x)OR(c~".toList] := rfl
  have hopen : compile "(a~)ANDb==\"x)OR(c~".toList =
      .error (.invalidComparison "b==\"x)OR(c~".toList .openQuote) := rfl
  obtain ⟨hpaired, -, hreported⟩ := quotes_consistent "(a~)ANDb==\"x)OR(c~".toList
  exact ⟨hblocks, (hpaired _ hblocks).1, hopen, (hreported _).1 hopen⟩

end Query

end RecordFilter
