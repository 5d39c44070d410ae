/-
  Proofs.Passes — block extraction by repeated passes.

  A working text is read again and again.  Each pass turns the groups that have no
  parentheses in them into blocks, from left to right, and puts references in their
  places.  What is left without groups is the last block.

  * `pass`, `passes`: the passes;
  * `Nest.prune`: a nest with references for its lower groups, the working text
    after some passes;
  * `Nest.pass_prune`: one pass, over a nest with its heights and numbers;
  * `extract_eq_passes`: block extraction gives the blocks of the passes.
-/
import RecordFilter.Proofs.Resolution

namespace RecordFilter

namespace Query

/-! ## Passes -/

/-- The text before the first parenthesis outside quotes, and the text from it on.
    `quoted` tells whether the text starts inside quotes. -/
def toParenthesis : Bool → Text → Text × Text
  | _, [] => ([], [])
  | quoted, c :: t =>
    if quoted = false ∧ (c = '(' ∨ c = ')') then ([], c :: t)
    else
      let (s, rest) := toParenthesis (if c = '"' then !quoted else quoted) t
      (c :: s, rest)

/-- The inside of the group that is open before the text, and the text behind the
    group; none if there is no parenthesis to close it, or another one first. -/
def inside? (t : Text) : Option (Text × Text) :=
  match toParenthesis false t with
  | (s, ')' :: rest) => some (s, rest)
  | _ => none

theorem toParenthesis_append (b : Bool) (t : Text) :
    (toParenthesis b t).1 ++ (toParenthesis b t).2 = t := by
  induction t generalizing b with
  | nil => rfl
  | cons c t ih =>
    rw [toParenthesis]
    by_cases h : b = false ∧ (c = '(' ∨ c = ')')
    · rw [if_pos h]
      rfl
    · rw [if_neg h]
      exact congrArg (c :: ·) (ih _)

theorem eq_of_inside? {t s rest : Text} (h : inside? t = some (s, rest)) :
    t = s ++ ')' :: rest := by
  have happend := toParenthesis_append false t
  rw [inside?] at h
  split at h
  · next hp =>
    rw [hp] at happend
    cases h
    exact happend.symm
  · cases h

/-- One pass over a working text: the blocks it finds, and the new working text.
    `next` is the number of the next block, and `quoted` tells whether the text
    starts inside quotes. -/
def pass (next : Nat) (quoted : Bool) (work : Text) : List Text × Text :=
  match work with
  | [] => ([], [])
  | c :: t =>
    if quoted = false ∧ c = '(' then
      match _h : inside? t with
      | some (s, rest) =>
        let (blocks, work) := pass (next + 1) false rest
        (s :: blocks, reference next ++ work)
      | none =>
        let (blocks, work) := pass next false t
        (blocks, '(' :: work)
    else
      let (blocks, work) := pass next (if c = '"' then !quoted else quoted) t
      (blocks, c :: work)
termination_by work.length
decreasing_by
  · simp only [eq_of_inside? _h, List.length_cons, List.length_append]
    omega
  all_goals simp

theorem pass_char {next : Nat} {b : Bool} {c : Char} (h : b = false → c ≠ '(') (t : Text) :
    pass next b (c :: t) =
      ((pass next (if c = '"' then !b else b) t).1,
        c :: (pass next (if c = '"' then !b else b) t).2) := by
  rw [pass, if_neg (by tauto)]

theorem pass_of_inside? {next : Nat} {t s rest : Text} (h : inside? t = some (s, rest)) :
    pass next false ('(' :: t) =
      (s :: (pass (next + 1) false rest).1, reference next ++ (pass (next + 1) false rest).2) := by
  rw [pass, if_pos ⟨rfl, rfl⟩]
  split
  · next h' =>
    rw [h] at h'
    cases h'
    rfl
  · next h' =>
    rw [h] at h'
    cases h'

theorem pass_of_inside?_eq_none {next : Nat} {t : Text} (h : inside? t = none) :
    pass next false ('(' :: t) = ((pass next false t).1, '(' :: (pass next false t).2) := by
  rw [pass, if_pos ⟨rfl, rfl⟩]
  split
  · next h' =>
    rw [h] at h'
    cases h'
  · rfl

theorem notMem_reference {i : Nat} {c : Char} (hc : c ≠ '$') (hd : c.isDigit = false) :
    c ∉ reference i := by
  intro h
  rcases List.mem_cons.1 h with rfl | h
  · exact hc rfl
  · simp [Text.isDigit_of_mem_ofNat h] at hd

theorem pass_append_of_notMem {s : Text} (h : '(' ∉ s) (hquote : '"' ∉ s) (next : Nat) (b : Bool)
    (t : Text) : pass next b (s ++ t) = ((pass next b t).1, s ++ (pass next b t).2) := by
  induction s with
  | nil => rfl
  | cons c s ih =>
    simp only [List.mem_cons, not_or] at h hquote
    rw [List.cons_append, pass_char fun _ => Ne.symm h.1, if_neg (Ne.symm hquote.1),
      ih h.2 hquote.2]
    rfl

/-- Every block that a pass finds takes an opening parenthesis out of the text. -/
theorem count_pass (next : Nat) (b : Bool) (t : Text) :
    (pass next b t).2.count '(' + (pass next b t).1.length ≤ t.count '(' := by
  induction hl : t.length using Nat.strong_induction_on generalizing t next b with
  | _ l ih =>
    subst hl
    cases t with
    | nil => simp [pass]
    | cons c t =>
      by_cases hc : b = false ∧ c = '('
      · obtain ⟨rfl, rfl⟩ := hc
        cases h : inside? t with
        | none =>
          have := ih _ (by simp) next false t rfl
          simp only [pass_of_inside?_eq_none h, List.count_cons_self]
          omega
        | some x =>
          obtain ⟨s, rest⟩ := x
          have href : (reference next).count '(' = 0 :=
            List.count_eq_zero.2 (notMem_reference (by decide) rfl)
          rw [pass_of_inside? h]
          obtain rfl := eq_of_inside? h
          have := ih _ (by simp; omega) (next + 1) false rest rfl
          simp only [List.count_append, href, List.length_cons, List.count_cons_self,
            List.count_cons_of_ne (show (')' : Char) ≠ '(' by decide)]
          omega
      · have := ih _ (by simp) next (if c = '"' then !b else b) t rfl
        simp only [pass_char (by tauto), List.count_cons]
        omega

/-- The blocks of a working text.  `next` is the number of the first. -/
def passes (next : Nat) (work : Text) : List Text :=
  let found := pass next false work
  if found.1 = [] then [work] else found.1 ++ passes (next + found.1.length) found.2
termination_by work.count '('
decreasing_by
  have hcount := count_pass next false work
  have hpos := List.length_pos_iff.2 ‹_›
  simp only [found] at *
  omega

namespace Nest

/-! ## Heights and numbers -/

/-- A nest with references in place of the groups lower than `k`.  The labels are
    heights and numbers. -/
def prune (k : Nat) : Nest (Nat × Nat) → Nest (Nat × Nat)
  | done => done
  | char c r => char c (r.prune k)
  | group a i r =>
    if a.1 < k then (ofText (reference a.2)).append (r.prune k)
    else group a (i.prune k) (r.prune k)

/-- All groups with their labels, by position of their opening parentheses. -/
def members {α : Type} : Nest α → List (α × Nest α)
  | done => []
  | char _ r => r.members
  | group a i r => (a, i) :: i.members ++ r.members

theorem map_fst_members {α : Type} (n : Nest α) : n.members.map Prod.fst = n.labels := by
  induction n with
  | done => rfl
  | char c r ih => exact ih
  | group a i r ihi ihr => simp [members, labels, ihi, ihr]

/-- The groups of height `k`, by position. -/
def level (k : Nat) (t : Nest (Nat × Nat)) : List ((Nat × Nat) × Nest (Nat × Nat)) :=
  t.members.filter (·.1.1 == k)

/-- The text of the block of a group. -/
def memberText (g : (Nat × Nat) × Nest (Nat × Nat)) : Text := (g.2.map Prod.snd).blockText

theorem Below.lt_of_mem_labels {α : Type} {f : α → Nat} {b : Nat} {n : Nest α} (h : n.Below f b)
    {a : α} (ha : a ∈ n.labels) : f a < b := by
  induction n generalizing b with
  | done => cases ha
  | char c r ih => exact ih h ha
  | group a' i r ihi ihr =>
    simp only [labels, List.cons_append, List.mem_cons, List.mem_append] at ha
    rcases ha with rfl | ha | ha
    · exact h.1
    · exact (ihi h.2.1 ha).trans h.1
    · exact ihr h.2.2 ha

theorem level_of_below {k : Nat} {t : Nest (Nat × Nat)} (h : t.Below Prod.fst k) :
    t.level k = [] := by
  rw [level, List.filter_eq_nil_iff]
  intro g hg
  have := h.lt_of_mem_labels (map_fst_members t ▸ List.mem_map_of_mem hg)
  simpa using this.ne

theorem prune_of_below {k : Nat} {t : Nest (Nat × Nat)} (h : t.Below Prod.fst k) :
    t.prune k = ofText (t.map Prod.snd).blockText := by
  induction t with
  | done => rfl
  | char c r ih => rw [prune, ih h]; rfl
  | group a i r _ ih => rw [prune, if_pos h.1, ih h.2.2, map, blockText, ofText_append]

theorem prune_zero (t : Nest (Nat × Nat)) : t.prune 0 = t := by
  induction t with
  | done => rfl
  | char c r ih => rw [prune, ih]
  | group a i r ihi ihr => rw [prune, if_neg (Nat.not_lt_zero _), ihi, ihr]

/-! ## Quotes -/

/-- References stand for groups as far as quotes are concerned. -/
theorem quotedAfter_prune {k : Nat} {t : Nest (Nat × Nat)} {b : Bool} (h : t.Regular b) :
    quotedAfter b (t.prune k).text = quotedAfter b t.text := by
  induction t generalizing b with
  | done => rfl
  | char c r ih => exact ih h.2
  | group a i r ihi ihr =>
    obtain ⟨rfl, hi, hquote, hr⟩ := h
    have hprune := ihi hi
    rw [hquote] at hprune
    rw [prune]
    split_ifs
    · simp [quotedAfter, quotedAfter_reference, ihr hr, hquote]
    · simp [quotedAfter, hprune, ihr hr, hquote]

theorem regular_prune {k : Nat} {t : Nest (Nat × Nat)} {b : Bool} (h : t.Regular b) :
    (t.prune k).Regular b := by
  induction t generalizing b with
  | done => trivial
  | char c r ih => exact ⟨h.1, ih h.2⟩
  | group a i r ihi ihr =>
    obtain ⟨rfl, hi, hquote, hr⟩ := h
    rw [prune]
    split_ifs
    · rw [regular_append, text_ofText, quotedAfter_reference]
      exact ⟨regular_ofText_of_notMem (notMem_reference (by decide) rfl)
        (notMem_reference (by decide) rfl), ihr hr⟩
    · exact ⟨rfl, ihi hi, by rw [quotedAfter_prune hi, hquote], ihr hr⟩

/-! ## Insides -/

theorem toParenthesis_ofText {α : Type} {b : Bool} {s : Text} (h : (ofText s : Nest α).Regular b)
    (hquote : quotedAfter b s = false) (t : Text) :
    toParenthesis b (s ++ ')' :: t) = (s, ')' :: t) := by
  induction s generalizing b with
  | nil =>
    cases hquote
    rfl
  | cons c s ih =>
    rw [List.cons_append, toParenthesis, if_neg, ih h.2 hquote]
    rintro ⟨rfl, hc⟩
    exact hc.elim (h.1 rfl).1 (h.1 rfl).2

/-- A text with groups has an opening parenthesis before any closing one. -/
theorem toParenthesis_of_kids {α : Type} {b : Bool} {n : Nest α} (h : n.Regular b)
    (hkids : n.kids ≠ []) (t : Text) :
    ∃ s u, toParenthesis b (n.text ++ t) = (s, '(' :: u) := by
  induction n generalizing b with
  | done => exact absurd rfl hkids
  | char c r ih =>
    obtain ⟨s, u, hsu⟩ := ih h.2 hkids
    refine ⟨c :: s, u, ?_⟩
    rw [text_char, List.cons_append, toParenthesis, if_neg, hsu]
    rintro ⟨rfl, hc⟩
    exact hc.elim (h.1 rfl).1 (h.1 rfl).2
  | group a i r _ _ =>
    obtain ⟨rfl, -⟩ := h
    exact ⟨[], i.text ++ ')' :: r.text ++ t, by simp [toParenthesis]⟩

theorem inside?_ofText {α : Type} {s : Text} (h : (ofText s : Nest α).Regular false)
    (hquote : quotedAfter false s = false) (t : Text) :
    inside? (s ++ ')' :: t) = some (s, t) := by
  rw [inside?, toParenthesis_ofText h hquote]
  rfl

theorem inside?_of_kids {α : Type} {n : Nest α} (h : n.Regular false) (hkids : n.kids ≠ [])
    (t : Text) : inside? (n.text ++ t) = none := by
  obtain ⟨s, u, hsu⟩ := toParenthesis_of_kids h hkids t
  rw [inside?, hsu]
  simp

/-! ## One pass -/

section Heights

variable {a : Nat × Nat} {i r t : Nest (Nat × Nat)}

/-- The labels of a group have its height, if all have. -/
theorem heights_of_group (h : (group a i r).map Prod.fst = (group a i r).heights.1) :
    a.1 = i.heights.2 ∧ i.map Prod.fst = i.heights.1 ∧ r.map Prod.fst = r.heights.1 :=
  group.inj h

theorem below_of_heights (h : t.map Prod.fst = t.heights.1) : t.Below Prod.fst t.heights.2 := by
  have := below_heights t
  rwa [← h, below_map] at this

/-- A nest of greater height keeps a group. -/
theorem kids_prune_ne_nil {k : Nat} (h : t.map Prod.fst = t.heights.1) (hk : k < t.heights.2) :
    (t.prune k).kids ≠ [] := by
  induction t with
  | done => exact absurd hk (Nat.not_lt_zero k)
  | char c r ih => exact ih (char.inj h).2 hk
  | group a i r _ ihr =>
    obtain ⟨ha, -, hr⟩ := heights_of_group h
    rw [prune]
    split_ifs with hlt
    · have hkr : k < r.heights.2 := by
        simp only [heights] at hk
        omega
      simpa using ihr hr hkr
    · exact List.cons_ne_nil _ _

theorem level_group (k : Nat) :
    (group a i r).level k = (if a.1 = k then [(a, i)] else []) ++ i.level k ++ r.level k := by
  by_cases h : a.1 = k <;> simp [level, members, h]

/-- A nest of greater height has a group of each lower height. -/
theorem level_ne_nil {k : Nat} (h : t.map Prod.fst = t.heights.1) (hk : k < t.heights.2) :
    t.level k ≠ [] := by
  induction t with
  | done => exact absurd hk (Nat.not_lt_zero k)
  | char c r ih => exact ih (char.inj h).2 hk
  | group a i r ihi ihr =>
    obtain ⟨ha, hi, hr⟩ := heights_of_group h
    rw [level_group]
    simp only [heights] at hk
    rcases Nat.lt_trichotomy a.1 k with hlt | rfl | hlt
    · have := ihr hr (by omega)
      simp [this]
    · simp
    · have := ihi hi (by omega)
      simp [this]

theorem text_prune_group {k : Nat} (h : ¬ a.1 < k) (rest : Text) :
    ((group a i r).prune k).text ++ rest =
      '(' :: ((i.prune k).text ++ ')' :: ((r.prune k).text ++ rest)) := by
  rw [prune, if_neg h]
  simp

end Heights

/-- Groups with the numbers from `next` on. -/
def Consecutive (next : Nat) (gs : List ((Nat × Nat) × Nest (Nat × Nat))) : Prop :=
  gs.map (·.1.2) = List.range' next gs.length

theorem consecutive_append {next : Nat} {gs gs' : List ((Nat × Nat) × Nest (Nat × Nat))}
    (h : Consecutive next (gs ++ gs')) :
    Consecutive next gs ∧ Consecutive (next + gs.length) gs' := by
  rw [Consecutive, List.map_append, List.length_append, ← List.range'_append_1] at h
  exact List.append_inj h (by simp)

/-- **One pass** makes blocks of the groups of the least height, and puts references
    in their places. -/
theorem pass_prune {k : Nat} {t : Nest (Nat × Nat)} (ht : t.map Prod.fst = t.heights.1) {b : Bool}
    (hreg : t.Regular b) {next : Nat} (hnum : Consecutive next (t.level k)) (rest : Text) :
    pass next b ((t.prune k).text ++ rest) =
      ((t.level k).map memberText ++
          (pass (next + (t.level k).length) (quotedAfter b t.text) rest).1,
        (t.prune (k + 1)).text ++
          (pass (next + (t.level k).length) (quotedAfter b t.text) rest).2) := by
  induction t generalizing b next rest with
  | done => rfl
  | char c r ih =>
    rw [prune, text_char, List.cons_append, pass_char fun hb => (hreg.1 hb).1,
      ih (char.inj ht).2 hreg.2 hnum]
    rfl
  | group a i r ihi ihr =>
    obtain ⟨ha, hi, hr⟩ := heights_of_group ht
    obtain ⟨rfl, hregi, hquote, hregr⟩ := hreg
    have hbelow : i.Below Prod.fst a.1 := ha ▸ below_of_heights hi
    have hend : quotedAfter false (group a i r).text = quotedAfter false r.text := by
      simp [quotedAfter, hquote]
    rw [hend]
    rcases Nat.lt_trichotomy a.1 k with hlt | rfl | hlt
    · -- the group is a reference already
      have hlevel : (group a i r).level k = r.level k := by
        rw [level_group, level_of_below (hbelow.mono hlt.le), if_neg hlt.ne]
        rfl
      rw [hlevel] at hnum ⊢
      have hpass := ihr hr hregr hnum rest
      rw [prune, if_pos hlt, prune, if_pos (by omega), text_append, text_append, text_ofText,
        List.append_assoc, pass_append_of_notMem (notMem_reference (by decide) rfl)
        (notMem_reference (by decide) rfl), hpass, List.append_assoc]
    · -- all groups in it are references, so it becomes one
      have hlevel : (group a i r).level a.1 = [(a, i)] ++ r.level a.1 := by
        rw [level_group, level_of_below hbelow, if_pos rfl]
        rfl
      rw [hlevel] at hnum ⊢
      obtain ⟨hnext, hnum⟩ := consecutive_append hnum
      have hnext : a.2 = next := by simpa [Consecutive] using hnext
      rw [List.length_singleton] at hnum
      have hpass := ihr hr hregr hnum rest
      have hprune := prune_of_below hbelow
      have hregp := regular_prune (k := a.1) hregi
      have hquotep := quotedAfter_prune (k := a.1) hregi
      rw [hprune] at hregp hquotep
      rw [text_ofText, hquote] at hquotep
      rw [text_prune_group (lt_irrefl _), hprune, text_ofText,
        pass_of_inside? (inside?_ofText hregp hquotep _), hpass, prune,
        if_pos (Nat.lt_succ_self _), hnext]
      simp [memberText, Nat.add_assoc, Nat.add_comm 1]
    · -- a group is left in it
      have hlevel : (group a i r).level k = i.level k ++ r.level k := by
        rw [level_group, if_neg hlt.ne']
        rfl
      rw [hlevel] at hnum ⊢
      obtain ⟨hnumi, hnumr⟩ := consecutive_append hnum
      have hkids := kids_prune_ne_nil hi (ha ▸ hlt)
      rw [text_prune_group (by omega),
        pass_of_inside?_eq_none (inside?_of_kids (regular_prune hregi) hkids _),
        ihi hi hregi hnumi, hquote, pass_char (by decide), if_neg (by decide),
        ihr hr hregr hnumr, prune, if_neg (by omega)]
      simp [Nat.add_assoc]

/-! ## All passes -/

/-- The ranks of the places with one height are consecutive. -/
theorem filter_mapIdx_rank (f : Nat → Nat) (k : Nat) (before hs : List Nat) :
    ((hs.mapIdx fun i h => (h, f h + (before ++ hs.take i).countP (· == h))).filter
        (·.1 == k)).map Prod.snd =
      List.range' (f k + before.countP (· == k)) (hs.countP (· == k)) := by
  induction hs generalizing before with
  | nil => rfl
  | cons x hs ih =>
    have hcons : ∀ i, before ++ (x :: hs).take (i + 1) = (before ++ [x]) ++ hs.take i := by simp
    have := ih (before ++ [x])
    simp only [List.mapIdx_cons, hcons, List.filter_cons, List.countP_cons]
    by_cases hx : x = k
    · subst hx
      simp only [beq_self_eq_true, if_true, List.map_cons, this]
      simp [List.range'_succ, Nat.add_assoc]
    · simp only [beq_iff_eq, hx, if_false, this]
      simp [hx]

theorem zip_ranks (hs : List Nat) : hs.zip (ranks hs) =
    hs.mapIdx fun i h => (h, hs.countP (· < h) + (hs.take i).countP (· == h)) := by
  refine List.ext_getElem (by simp) fun i h₁ h₂ => ?_
  simp [ranks]

theorem heights_map {α β : Type} (f : α → β) (n : Nest α) : (n.map f).heights = n.heights := by
  induction n with
  | done => rfl
  | char c r ih => simp only [map, heights, ih]
  | group a i r ihi ihr => simp only [map, heights, ihi, ihr]

theorem groups_map_snd (t : Nest (Nat × Nat)) :
    (t.map Prod.snd).groups = t.members.map fun g => (g.1.2, g.2.map Prod.snd) := by
  induction t with
  | done => rfl
  | char c r ih => exact ih
  | group a i r ihi ihr => simp [map, groups, members, ihi, ihr]

/-- A nest labelled with its heights and the numbers that these give. -/
structure Ranked (t : Nest (Nat × Nat)) : Prop where
  heights : t.map Prod.fst = t.heights.1
  labels : t.labels = (t.labels.map Prod.fst).zip (ranks (t.labels.map Prod.fst))
  numbered : (t.map Prod.snd).Numbered

theorem exists_ranked (n : Nest Unit) : ∃ t : Nest (Nat × Nat), t.Ranked ∧ t.bare = n ∧
    t.map Prod.snd = n.number := by
  obtain ⟨t, h₁, h₂, h₃⟩ := exists_number n
  have hbare : t.bare = n := by
    rw [← bare_number n, ← h₂, bare_map]
  have hfst : t.labels.map Prod.fst = n.heights.1.labels := by
    rw [← labels_map, h₁]
  refine ⟨t, ⟨?_, by rw [hfst, h₃], h₂ ▸ numbered_number n⟩, hbare, h₂⟩
  rw [h₁, ← hbare, bare, heights_map]

/-- The number of groups lower than `k`. -/
def lower (k : Nat) (t : Nest (Nat × Nat)) : Nat := (t.labels.map Prod.fst).countP (· < k)

theorem length_level (k : Nat) (t : Nest (Nat × Nat)) :
    (t.level k).length = (t.labels.map Prod.fst).countP (· == k) := by
  rw [level, ← List.countP_eq_length_filter, ← map_fst_members, List.map_map, List.countP_map]
  rfl

theorem lower_succ (k : Nat) (t : Nest (Nat × Nat)) :
    t.lower (k + 1) = t.lower k + (t.level k).length := by
  rw [length_level, lower, lower, ← countP_le]
  simp

theorem lower_of_below {k : Nat} {t : Nest (Nat × Nat)} (h : t.Below Prod.fst k) :
    t.lower k = t.labels.length := by
  rw [lower, List.countP_eq_length.2, List.length_map]
  intro x hx
  obtain ⟨a, ha, rfl⟩ := List.mem_map.1 hx
  simpa using h.lt_of_mem_labels ha

namespace Ranked

variable {t : Nest (Nat × Nat)} (ht : t.Ranked)
include ht

theorem below : t.Below Prod.fst t.heights.2 := below_of_heights ht.heights

/-- The groups of one height are numbered from left to right, after all lower
    groups. -/
theorem consecutive_level (k : Nat) : Consecutive (t.lower k) (t.level k) := by
  have hlevel : (t.level k).map Prod.fst = t.labels.filter (·.1 == k) := by
    rw [← map_fst_members, List.filter_map]
    rfl
  have hrank := filter_mapIdx_rank (fun h => t.lower h) k [] (t.labels.map Prod.fst)
  simp only [List.nil_append, lower, ← zip_ranks, ← ht.labels] at hrank
  rw [← hlevel, List.map_map] at hrank
  rw [Consecutive, length_level, lower]
  exact hrank

/-- The groups in the order of their heights are numbered from zero on. -/
theorem numbers_levels (k : Nat) :
    ((List.range k).flatMap t.level).map (·.1.2) = List.range (t.lower k) := by
  induction k with
  | zero => simp [lower]
  | succ k ih =>
    have hk := ht.consecutive_level k
    rw [Consecutive] at hk
    have happend := List.range'_append_1 (s := 0) (m := t.lower k) (n := (t.level k).length)
    rw [Nat.zero_add] at happend
    rw [List.range_succ, List.flatMap_append, List.map_append, ih, List.flatMap_singleton, hk,
      lower_succ, List.range_eq_range', List.range_eq_range', happend]

/-- **The blocks are those of the groups by height**, from left to right, and that
    of the whole. -/
theorem blocks_eq_levels : (t.map Prod.snd).blocks =
    ((List.range t.heights.2).flatMap t.level).map memberText ++
      [(t.map Prod.snd).blockText] := by
  have hlen : (t.map Prod.snd).groups.length = t.lower t.heights.2 := by
    rw [length_groups, labels_map, List.length_map, lower_of_below ht.below]
  rw [blocks, hlen, ← ht.numbers_levels, List.map_map]
  congr 1
  refine List.map_congr_left fun g hg => ?_
  obtain ⟨k, -, hg⟩ := List.mem_flatMap.1 hg
  have hmem : (g.1.2, g.2.map Prod.snd) ∈ (t.map Prod.snd).groups := by
    rw [groups_map_snd]
    exact List.mem_map_of_mem (List.mem_of_mem_filter hg)
  rw [Function.comp_apply, ht.numbered.lookup hmem]
  rfl

/-- The working text after one more pass. -/
theorem pass_prune_text (hreg : t.Regular false) (k : Nat) :
    pass (t.lower k) false (t.prune k).text =
      ((t.level k).map memberText, (t.prune (k + 1)).text) := by
  simpa [pass] using pass_prune ht.heights hreg (ht.consecutive_level k) []

/-- **All passes** from the working text after `k` of them on. -/
theorem passes_prune (hreg : t.Regular false) (m k : Nat) (hk : k + m = t.heights.2) :
    passes (t.lower k) (t.prune k).text =
      ((List.range' k m).flatMap t.level).map memberText ++ [(t.map Prod.snd).blockText] := by
  induction m generalizing k with
  | zero =>
    obtain rfl : k = t.heights.2 := hk
    rw [passes, ht.pass_prune_text hreg, level_of_below ht.below, prune_of_below ht.below]
    simp
  | succ m ih =>
    have hne := level_ne_nil ht.heights (k := k) (by omega)
    have hrest := ih (k + 1) (by omega)
    rw [lower_succ] at hrest
    rw [passes, ht.pass_prune_text hreg]
    simp [hne, hrest, List.range'_succ]

end Ranked

end Nest

theorem passes_eq_blocks {q : Text} (h : Balanced q) : passes 0 q = (nestOf q).blocks := by
  obtain ⟨t, ht, hbare, hnumber⟩ := Nest.exists_ranked (Nest.ofMarks (marks false q))
  have hmarks : t.toMarks = marks false q := by
    rw [← h.toMarks_nestOf, nestOf, ← hnumber, Nest.toMarks_map]
  obtain ⟨htext, hreg⟩ := Nest.regular_of_toMarks hmarks
  have hpasses := ht.passes_prune hreg t.heights.2 0 (Nat.zero_add _)
  have hlower : t.lower 0 = 0 := by simp [Nest.lower]
  rw [hlower, Nest.prune_zero, htext, ← List.range_eq_range', ← ht.blocks_eq_levels, hnumber]
    at hpasses
  exact hpasses

/-- **Block extraction gives the blocks of repeated passes**, for the texts whose
    unquoted parentheses are balanced, and for no others. -/
theorem extract_eq_passes {q : Text} {blocks : List Text} :
    extract q = .ok blocks ↔ Balanced q ∧ passes 0 q = blocks := by
  rw [extract_eq_ok_iff]
  exact and_congr_right fun h => by rw [passes_eq_blocks h]

/-- Three passes: two groups, a group around one of them, and the whole. -/
example : passes 0 "((a~)ORb~)AND(c==\"(\")".toList =
    ["a~".toList, "c==\"(\"".toList, "$0ORb~".toList, "$2AND$1".toList] := by cbv

end Query

end RecordFilter
