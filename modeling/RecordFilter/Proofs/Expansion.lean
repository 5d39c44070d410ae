/-
  Proofs.Expansion — from blocks back to the query.

  A reference in a block is a sign with all the digits behind it.  If the query has no
  sign of its own and no digit behind a group, these are the references that block
  extraction wrote, and putting the groups back gives the query.

  * `glyphs`: a block text with its references told apart;
  * `namedIn`, `expansion`: the blocks that a block refers to, and the text that it
    stands for;
  * `Nest.glyphs_blockText`: the references are those that were written;
  * `Nest.Numbered.expansion_eq_text`: every layer is the expansion of its block;
  * `expansion_of_extract`: blocks refer to earlier ones, to each once, and expand to
    the query.
-/
import RecordFilter.Proofs.Grammar

namespace RecordFilter

namespace Query

/-! ## Block texts -/

/-- A character of a block text, or a reference in it. -/
inductive Glyph where
  | char (c : Char)
  | reference (index : Nat)
  deriving DecidableEq, Repr

/-- The glyphs of a block text.  A sign with digits behind it is a reference, and takes
    as many digits as there are. -/
def glyphs (t : Text) : List Glyph :=
  match t with
  | [] => []
  | c :: t =>
    if c = referenceSign ∧ t.takeWhile Char.isDigit ≠ [] then
      .reference (Text.value (t.takeWhile Char.isDigit)) :: glyphs (t.dropWhile Char.isDigit)
    else .char c :: glyphs t
termination_by t.length
decreasing_by
  · have := (t.dropWhile_suffix Char.isDigit).length_le
    simp only [List.length_cons]
    omega
  · simp

/-- The number of a reference. -/
def Glyph.index? : Glyph → Option Nat
  | char _ => none
  | reference i => some i

/-- A glyph as text, a reference as `meaning` tells. -/
def Glyph.text (meaning : Nat → Text) : Glyph → Text
  | char c => [c]
  | reference i => meaning i

/-- The numbers of the blocks that a block refers to, from left to right. -/
def namedIn (block : Text) : List Nat := (glyphs block).filterMap Glyph.index?

/-- The text that block `i` stands for: its references to earlier blocks stand for what
    these stand for, in parentheses. -/
def expansion (blocks : List Text) (i : Nat) : Text :=
  (glyphs (blocks.getD i [])).flatMap <| Glyph.text fun j =>
    if j < i then '(' :: expansion blocks j ++ [')'] else reference j
termination_by i

theorem glyphs_char {c : Char} (h : c ≠ referenceSign) (t : Text) :
    glyphs (c :: t) = .char c :: glyphs t := by
  rw [glyphs, if_neg fun hc => h hc.1]

/-- A reference ends where the digits of its number end. -/
theorem glyphs_reference (i : Nat) {t : Text} (h : ∀ c ∈ t.head?, c.isDigit = false) :
    glyphs (reference i ++ t) = .reference i :: glyphs t := by
  have hdigits : ∀ c ∈ Text.ofNat i, c.isDigit := fun c => Text.isDigit_of_mem_ofNat
  have htake : t.takeWhile Char.isDigit = [] := by
    cases t with
    | nil => rfl
    | cons c t => simp [h c rfl]
  have hdrop : t.dropWhile Char.isDigit = t := by
    have happend := List.takeWhile_append_dropWhile (p := Char.isDigit) (l := t)
    rwa [htake, List.nil_append] at happend
  rw [reference, List.cons_append, glyphs, List.takeWhile_append_of_pos hdigits,
    List.dropWhile_append_of_pos hdigits, htake, hdrop, List.append_nil, Text.value_ofNat,
    if_pos ⟨rfl, Text.ofNat_ne_nil i⟩]

namespace Nest

/-! ## The references that were written -/

/-- The glyphs of the block of a nest. -/
def glyphs : Nest Nat → List Glyph
  | done => []
  | char c r => .char c :: r.glyphs
  | group i _ r => .reference i :: r.glyphs

/-- What stands behind a group is no digit. -/
theorem NoDigitBehindGroup.head_of_group {i : Nat} {m r : Nest Nat}
    (h : (group i m r).NoDigitBehindGroup) : ∀ c ∈ r.blockText.head?, c.isDigit = false := by
  intro c hc
  cases r with
  | done => cases hc
  | char d r =>
    cases hc
    exact h.isDigit_eq_false
  | group j k r =>
    cases hc
    rfl

/-- **The references of a block are those that were written in it.** -/
theorem glyphs_blockText {n : Nest Nat} (hs : '$' ∉ n.text) (hd : n.NoDigitBehindGroup) :
    Query.glyphs n.blockText = n.glyphs := by
  induction n with
  | done => rw [blockText, Query.glyphs, glyphs]
  | char c r ih =>
    rw [text_char, List.mem_cons, not_or] at hs
    rw [blockText, glyphs_char (Ne.symm hs.1), glyphs,
      ih hs.2 (hd.of_within (List.suffix_cons _ _).isInfix)]
  | group i m r _ ihr =>
    have hr : r.toMarks <:+: (group i m r).toMarks :=
      ⟨.opening :: m.toMarks ++ [.closing], [], by simp [toMarks]⟩
    have hsr : '$' ∉ r.text := fun h => hs (text_subset_of_toMarks hr h)
    rw [blockText, glyphs_reference i hd.head_of_group, glyphs, ihr hsr (hd.of_within hr)]

theorem filterMap_glyphs (n : Nest Nat) : n.glyphs.filterMap Glyph.index? = n.kids := by
  induction n with
  | done => rfl
  | char c r ih =>
    rw [glyphs, List.filterMap_cons_none rfl, ih]
    rfl
  | group i m r _ ih =>
    have hi : (Glyph.reference i).index? = some i := rfl
    rw [glyphs, List.filterMap_cons_some hi, ih, kids]

/-- With its groups put back, a block is the text of the nest. -/
theorem flatMap_glyphs {n : Nest Nat} {meaning : Nat → Text}
    (h : ∀ g ∈ n.groups, g.1 ∈ n.kids → meaning g.1 = '(' :: g.2.text ++ [')']) :
    n.glyphs.flatMap (Glyph.text meaning) = n.text := by
  induction n with
  | done => rfl
  | char c r ih =>
    rw [glyphs, List.flatMap_cons, ih h]
    rfl
  | group i m r _ ih =>
    have hm := h (i, m) (by simp [groups]) (by simp [kids])
    have hr := ih fun g hg hkid => h g (by simp [groups, hg]) (by simp [kids, hkid])
    rw [glyphs, List.flatMap_cons, hr, Glyph.text, hm, text_group]
    simp

namespace Numbered

variable {n : Nest Nat} (hn : n.Numbered) (hs : '$' ∉ n.text) (hd : n.NoDigitBehindGroup)
include hn hs hd

theorem glyphs_of_mem_layers {m : Nest Nat} (hm : m ∈ n.layers) :
    Query.glyphs m.blockText = m.glyphs := by
  have hinfix := hn.toMarks_infix_of_mem_layers hm
  exact glyphs_blockText (fun h => hs (text_subset_of_toMarks hinfix h)) (hd.of_within hinfix)

theorem namedIn_of_mem_layers {m : Nest Nat} (hm : m ∈ n.layers) : namedIn m.blockText = m.kids := by
  rw [namedIn, hn.glyphs_of_mem_layers hs hd hm, filterMap_glyphs]

/-- **Every layer is the expansion of its block.**  By induction on the number, as a
    layer refers to lower ones only. -/
theorem expansion_eq_text {k : Nat} {m : Nest Nat} (hm : n.layers[k]? = some m) :
    expansion n.blocks k = m.text := by
  induction k using Nat.strong_induction_on generalizing m with
  | _ k ih =>
    have hblock : n.blocks.getD k [] = m.blockText := by
      rw [List.getD_eq_getElem?_getD, blocks_eq, List.getElem?_map, hm]
      rfl
    rw [expansion, hblock, hn.glyphs_of_mem_layers hs hd (List.mem_of_getElem? hm)]
    refine flatMap_glyphs fun g hg hkid => ?_
    have hlt := hn.lt_of_mem_kids hm hkid
    rw [if_pos hlt, ih g.1 hlt (hn.layers_getElem? (hn.groups_subset_of_layer hm hg))]

theorem flatMap_namedIn_perm :
    (n.blocks.flatMap namedIn).Perm (List.range n.labels.length) := by
  rw [blocks_eq, List.flatMap_map,
    List.flatMap_congr fun m hm => hn.namedIn_of_mem_layers hs hd hm]
  exact hn.kids_perm

end Numbered

end Nest

/-! ## Queries -/

/-- **Block extraction can be undone.**  In the blocks of a query without signs and
    without digits behind groups, every block refers to earlier ones only, every block
    but the last is referred to exactly once, and the last one expands to the query. -/
theorem expansion_of_extract {q : Text} {blocks : List Text} (hs : '$' ∉ q)
    (hd : NoDigitBehindGroup q) (h : extract q = .ok blocks) :
    ∃ n, blocks.length = n + 1 ∧
      (∀ i block, blocks[i]? = some block → ∀ j ∈ namedIn block, j < i) ∧
      (blocks.flatMap namedIn).Perm (List.range n) ∧ expansion blocks n = q := by
  obtain ⟨hb, rfl⟩ := extract_eq_ok_iff.1 h
  have hn := numbered_nestOf q
  have hs' : '$' ∉ (nestOf q).text := hb.text_nestOf.symm ▸ hs
  have hd' := hb.noDigitBehindGroup_nestOf hd
  refine ⟨(nestOf q).labels.length, ?_, fun i block hi j hj => ?_,
    hn.flatMap_namedIn_perm hs' hd', ?_⟩
  · rw [Nest.blocks_eq, List.length_map, Nest.length_layers]
  · rw [Nest.blocks_eq, List.getElem?_map, Option.map_eq_some_iff] at hi
    obtain ⟨m, hm, rfl⟩ := hi
    rw [hn.namedIn_of_mem_layers hs' hd' (List.mem_of_getElem? hm)] at hj
    exact hn.lt_of_mem_kids hm hj
  · rw [hn.expansion_eq_text hs' hd' (Nest.layers_getElem?_length _), hb.text_nestOf]

/-- Groups side by side and inside each other, an empty one, and a quoted parenthesis. -/
def nestedGroups : Text := "((é)(b))x(\")\"())".toList

/-- Their blocks. -/
def nestedBlocks : List Text :=
  ["é".toList, "b".toList, [], "$0$1".toList, "\")\"$2".toList, "$3x$4".toList]

theorem expansion_nestedBlocks :
    '$' ∉ nestedGroups ∧ NoDigitBehindGroup nestedGroups ∧
      extract nestedGroups = .ok nestedBlocks ∧
      (nestedBlocks.flatMap namedIn).Perm [0, 1, 2, 3, 4] ∧
      expansion nestedBlocks 5 = nestedGroups := by
  have hs : '$' ∉ nestedGroups := by decide
  have hd : NoDigitBehindGroup nestedGroups := by decide +kernel
  have h : extract nestedGroups = .ok nestedBlocks := rfl
  obtain ⟨n, hlen, -, hperm, hexpansion⟩ := expansion_of_extract hs hd h
  obtain rfl : 5 = n := Nat.succ.inj hlen
  exact ⟨hs, hd, h, hperm, hexpansion⟩

end Query

end RecordFilter
