/-
  Proofs.Numbering — the numbers of groups.

  * `ranks_perm`: ranks are the numbers from zero on, each once;
  * `Below`: every group has a greater label than the groups inside it;
  * `Numbered`: the labels of `n` groups are the numbers below `n`, each once
    and each greater than those inside, and `numbered_number`: block extraction
    numbers groups so;
  * `layers`: the texts of the blocks before references are written, and
    `Numbered.layers_getElem?`: a layer is the inside of the group of its
    number;
  * `kids_perm`: every group is a direct group of exactly one layer.
-/
import RecordFilter.Proofs.Nest

namespace RecordFilter

namespace Query

/-! ## Ranks -/

/-- The number of heights that are not greater. -/
theorem countP_le (hs : List Nat) (h : Nat) :
    hs.countP (· ≤ h) = hs.countP (· < h) + hs.countP (· == h) := by
  induction hs with
  | nil => rfl
  | cons x hs ih =>
    simp only [List.countP_cons, ih, decide_eq_true_eq, beq_iff_eq]
    split_ifs <;> omega

/-- The rank of the height at a place. -/
def rank (hs : List Nat) (i : Fin hs.length) : Nat :=
  hs.countP (· < hs[i]) + (hs.take i).countP (· == hs[i])

theorem ranks_eq (hs : List Nat) : ranks hs = List.ofFn (rank hs) := by
  refine List.ext_getElem (by simp [ranks]) fun i h₁ h₂ => ?_
  simp [ranks, rank]

@[simp] theorem length_ranks (hs : List Nat) : (ranks hs).length = hs.length := by
  simp [ranks]

/-- A height counts itself among the equal ones, but not among those before it. -/
theorem countP_take_lt {hs : List Nat} {i : Nat} (h : i < hs.length) :
    (hs.take i).countP (· == hs[i]) < hs.countP (· == hs[i]) := by
  have h₁ : hs.countP (· == hs[i]) =
      (hs.take i).countP (· == hs[i]) + (hs.drop i).countP (· == hs[i]) := by
    rw [← List.countP_append, List.take_append_drop]
  rw [h₁, List.drop_eq_getElem_cons h, List.countP_cons, if_pos (beq_self_eq_true _)]
  omega

theorem rank_lt_countP {hs : List Nat} (i : Fin hs.length) : rank hs i < hs.countP (· ≤ hs[i]) := by
  rw [rank, countP_le]
  have := countP_take_lt i.isLt
  simp only [Fin.getElem_fin]
  omega

theorem rank_lt {hs : List Nat} (i : Fin hs.length) : rank hs i < hs.length :=
  (rank_lt_countP i).trans_le List.countP_le_length

/-- Lower heights have lower ranks. -/
theorem rank_lt_of_lt {hs : List Nat} {i j : Fin hs.length} (h : hs[i] < hs[j]) :
    rank hs i < rank hs j := by
  have h₁ : hs.countP (· ≤ hs[i]) ≤ hs.countP (· < hs[j]) :=
    List.countP_mono_left fun x _ hx => by simp only [decide_eq_true_eq] at hx ⊢; omega
  have h₂ := rank_lt_countP i
  rw [rank.eq_1 hs j]
  omega

/-- Of equal heights the one further to the left has the lower rank. -/
theorem rank_lt_of_eq {hs : List Nat} {i j : Fin hs.length} (hij : i < j) (h : hs[i] = hs[j]) :
    rank hs i < rank hs j := by
  have hij' : i.1 < j.1 := hij
  have hi : i.1 < (hs.take j).length := by simp; omega
  have h₁ := countP_take_lt hi
  rw [List.take_take, Nat.min_eq_left hij'.le, List.getElem_take] at h₁
  rw [rank, rank, ← h]
  simp only [Fin.getElem_fin]
  omega

theorem rank_injective (hs : List Nat) : Function.Injective (rank hs) := by
  intro i j h
  by_contra hne
  rcases lt_trichotomy hs[i] hs[j] with hlt | heq | hlt
  · exact (rank_lt_of_lt hlt).ne h
  · rcases lt_or_gt_of_ne hne with hij | hij
    · exact (rank_lt_of_eq hij heq).ne h
    · exact (rank_lt_of_eq hij heq.symm).ne' h
  · exact (rank_lt_of_lt hlt).ne' h

/-- Different numbers below their count are all numbers below it. -/
theorem perm_range_of_nodup {l : List Nat} (h : l.Nodup) (hl : ∀ x ∈ l, x < l.length) :
    l.Perm (List.range l.length) :=
  (h.subperm fun x hx => List.mem_range.2 (hl x hx)).perm_of_length_le (by simp)

theorem ranks_perm (hs : List Nat) : (ranks hs).Perm (List.range hs.length) := by
  rw [← length_ranks hs]
  refine perm_range_of_nodup ?_ fun x hx => ?_
  · rw [ranks_eq, List.nodup_ofFn]
    exact rank_injective hs
  · rw [ranks_eq, List.mem_ofFn] at hx
    obtain ⟨i, rfl⟩ := hx
    rw [length_ranks]
    exact rank_lt i

namespace Nest

variable {α β : Type}

/-! ## Descending labels -/

/-- The labels by `f` are below `b`, and those inside a group below its own. -/
def Below (f : α → Nat) : Nat → Nest α → Prop
  | _, done => True
  | b, char _ r => Below f b r
  | b, group a i r => f a < b ∧ Below f (f a) i ∧ Below f b r

theorem Below.mono {f : α → Nat} {b b' : Nat} {n : Nest α} (h : n.Below f b) (hb : b ≤ b') :
    n.Below f b' := by
  induction n with
  | done => trivial
  | char c r ih => exact ih h
  | group a i r _ ih => exact ⟨h.1.trans_le hb, h.2.1, ih h.2.2⟩

theorem below_map {f : β → Nat} {g : α → β} {b : Nat} {n : Nest α} :
    (n.map g).Below f b ↔ n.Below (f ∘ g) b := by
  induction n generalizing b with
  | done => exact Iff.rfl
  | char c r ih => exact ih
  | group a i r ihi ihr => simp only [map, Below, ihi, ihr, Function.comp_apply]

/-- Labels that grow with others descend where these do. -/
theorem Below.of_lt {f g : α → Nat} {b b' : Nat} {n : Nest α} (h : n.Below f b)
    (hb : ∀ x ∈ n.labels, f x < b → g x < b')
    (hfg : ∀ x ∈ n.labels, ∀ y ∈ n.labels, f x < f y → g x < g y) : n.Below g b' := by
  induction n generalizing b b' with
  | done => trivial
  | char c r ih => exact ih h hb hfg
  | group a i r ihi ihr =>
    obtain ⟨ha, hi, hr⟩ := h
    simp only [labels, List.cons_append, List.mem_cons, List.mem_append] at hb hfg
    refine ⟨hb a (Or.inl rfl) ha, ihi hi (fun x hx => ?_) fun x hx y hy => ?_,
      ihr hr (fun x hx => ?_) fun x hx y hy => ?_⟩
    · exact hfg x (Or.inr (Or.inl hx)) a (Or.inl rfl)
    · exact hfg x (Or.inr (Or.inl hx)) y (Or.inr (Or.inl hy))
    · exact hb x (Or.inr (Or.inr hx))
    · exact hfg x (Or.inr (Or.inr hx)) y (Or.inr (Or.inr hy))

theorem bare_heights (n : Nest α) : n.heights.1.bare = n.bare := by
  induction n with
  | done => rfl
  | char c r ih => simpa [heights, bare, map] using ih
  | group a i r ihi ihr => simpa [heights, bare, map] using ⟨ihi, ihr⟩

theorem below_heights (n : Nest α) : n.heights.1.Below id n.heights.2 := by
  induction n with
  | done => trivial
  | char c r ih => exact ih
  | group a i r ihi ihr =>
    exact ⟨lt_max_of_lt_left (Nat.lt_succ_self _), ihi, ihr.mono (le_max_right _ _)⟩

theorem zip_append_left (xs : List α) (ys : List α) (zs : List β) :
    (xs ++ ys).zip zs = xs.zip zs ++ ys.zip (zs.drop xs.length) := by
  induction xs generalizing zs with
  | nil => rfl
  | cons x xs ih => cases zs with
    | nil => simp
    | cons z zs => simp [ih]

/-- New labels are given in the order of the old ones. -/
theorem exists_relabel (n : Nest Nat) (ls : List Nat) (h : n.labels.length ≤ ls.length) :
    ∃ t : Nest (Nat × Nat), t.map Prod.fst = n ∧ t.map Prod.snd = (n.relabel ls).1 ∧
      t.labels = n.labels.zip ls ∧ (n.relabel ls).2 = ls.drop n.labels.length := by
  induction n generalizing ls with
  | done => exact ⟨done, rfl, rfl, rfl, rfl⟩
  | char c r ih =>
    obtain ⟨t, h₁, h₂, h₃, h₄⟩ := ih ls h
    exact ⟨char c t, by rw [map, h₁], by rw [map, h₂, relabel], h₃, h₄⟩
  | group a i r ihi ihr =>
    cases ls with
    | nil => simp [labels] at h
    | cons l ls =>
      simp only [labels, List.cons_append, List.length_cons, List.length_append] at h
      obtain ⟨ti, hi₁, hi₂, hi₃, hi₄⟩ := ihi ls (by omega)
      obtain ⟨tr, hr₁, hr₂, hr₃, hr₄⟩ := ihr (ls.drop i.labels.length) (by
        rw [List.length_drop]; omega)
      refine ⟨group (a, l) ti tr, by rw [map, hi₁, hr₁], ?_, ?_, ?_⟩
      · simp only [map, relabel, List.tail_cons, List.headD_cons, hi₂, hi₄, hr₂]
      · simp only [labels, List.cons_append, List.zip_cons_cons, hi₃, hr₃, zip_append_left]
      · simp only [relabel, List.tail_cons, hi₄, hr₄, labels, List.cons_append, List.length_cons,
          List.length_append, List.drop_succ_cons, List.drop_drop]

/-! ## Groups -/

/-- The labels of the direct groups. -/
def kids : Nest α → List α
  | done => []
  | char _ r => r.kids
  | group a _ r => a :: r.kids

@[simp] theorem kids_append (n k : Nest α) : (n.append k).kids = n.kids ++ k.kids := by
  induction n with
  | done => rfl
  | char c r ih => simpa [append, kids] using ih
  | group a i r _ ih => simp [append, kids, ih]

@[simp] theorem kids_ofText (t : Text) : (ofText t : Nest α).kids = [] := by
  induction t with
  | nil => rfl
  | cons c t ih => simpa [ofText, kids] using ih

theorem labels_eq_nil_of_kids {n : Nest α} (h : n.kids = []) : n.labels = [] := by
  induction n with
  | done => rfl
  | char c r ih => exact ih h
  | group a i r _ _ => cases h

@[simp] theorem groups_append (n k : Nest Nat) : (n.append k).groups = n.groups ++ k.groups := by
  induction n with
  | done => rfl
  | char c r ih => simpa [append, groups] using ih
  | group a i r _ ih => simp [append, groups, ih]

@[simp] theorem groups_ofText (t : Text) : (ofText t).groups = [] := by
  induction t with
  | nil => rfl
  | cons c t ih => simpa [ofText, groups] using ih

@[simp] theorem map_fst_groups (n : Nest Nat) : n.groups.map Prod.fst = n.labels := by
  induction n with
  | done => rfl
  | char c r ih => exact ih
  | group a i r ihi ihr => simp [groups, labels, ihi, ihr]

@[simp] theorem length_groups (n : Nest Nat) : n.groups.length = n.labels.length := by
  rw [← map_fst_groups, List.length_map]

theorem groups_subset {n : Nest Nat} {g : Nat × Nest Nat} (h : g ∈ n.groups) :
    g.2.groups ⊆ n.groups := by
  induction n with
  | done => cases h
  | char c r ih => exact ih h
  | group a i r ihi ihr =>
    simp only [groups, List.cons_append, List.mem_cons, List.mem_append] at h
    intro x hx
    simp only [groups, List.cons_append, List.mem_cons, List.mem_append]
    rcases h with rfl | h | h
    · exact Or.inr (Or.inl hx)
    · exact Or.inr (Or.inl (ihi h hx))
    · exact Or.inr (Or.inr (ihr h hx))

theorem Below.of_mem_groups {f : Nat → Nat} {b : Nat} {n : Nest Nat} (h : n.Below f b)
    {g : Nat × Nest Nat} (hg : g ∈ n.groups) : g.2.Below f (f g.1) := by
  induction n generalizing b with
  | done => cases hg
  | char c r ih => exact ih h hg
  | group a i r ihi ihr =>
    simp only [groups, List.cons_append, List.mem_cons, List.mem_append] at hg
    rcases hg with rfl | hg | hg
    · exact h.2.1
    · exact ihi h.2.1 hg
    · exact ihr h.2.2 hg

theorem Below.lt_of_mem_kids {f : α → Nat} {b : Nat} {n : Nest α} (h : n.Below f b)
    {a : α} (ha : a ∈ n.kids) : f a < b := by
  induction n with
  | done => cases ha
  | char c r ih => exact ih h ha
  | group a' i r _ ih =>
    rcases List.mem_cons.1 ha with rfl | ha
    · exact h.1
    · exact ih h.2.2 ha

/-- Every group is a direct group of the whole or of one group. -/
theorem labels_perm (n : Nest Nat) :
    n.labels.Perm (n.kids ++ n.groups.flatMap fun g => g.2.kids) := by
  induction n with
  | done => exact .nil
  | char c r ih => exact ih
  | group a i r ihi ihr =>
    simp only [labels, kids, groups, List.cons_append, List.flatMap_cons, List.flatMap_append]
    -- the two sides have the same parts in different orders: count in each
    refine List.Perm.cons a (List.perm_iff_count.2 fun x => ?_)
    have hi := ihi.count_eq x
    have hr := ihr.count_eq x
    simp only [List.count_append] at hi hr ⊢
    omega

/-! ## Numbered groups -/

/-- The labels are the numbers below their count, each once, and descend. -/
structure Numbered (n : Nest Nat) : Prop where
  perm : n.labels.Perm (List.range n.labels.length)
  below : n.Below id n.labels.length

theorem bare_map (f : α → β) (n : Nest α) : (n.map f).bare = n.bare := by
  induction n with
  | done => rfl
  | char c r ih => simpa [bare, map] using ih
  | group a i r ihi ihr => simpa [bare, map] using ⟨ihi, ihr⟩

theorem bare_unit (n : Nest Unit) : n.bare = n := by
  induction n with
  | done => rfl
  | char c r ih => simpa [bare, map] using ih
  | group a i r ihi ihr => simpa [bare, map] using ⟨ihi, ihr⟩

/-- Numbering pairs the heights of the groups with their ranks. -/
theorem exists_number (n : Nest Unit) : ∃ t : Nest (Nat × Nat),
    t.map Prod.fst = n.heights.1 ∧ t.map Prod.snd = n.number ∧
      t.labels = n.heights.1.labels.zip (ranks n.heights.1.labels) := by
  obtain ⟨t, h₁, h₂, h₃, -⟩ := exists_relabel n.heights.1 (ranks n.heights.1.labels) (by simp)
  exact ⟨t, h₁, h₂, h₃⟩

theorem bare_number (n : Nest Unit) : n.number.bare = n := by
  obtain ⟨t, h₁, h₂, -⟩ := exists_number n
  rw [← h₂, bare_map, ← bare_map Prod.fst, h₁, bare_heights, bare_unit]

@[simp] theorem toMarks_number (n : Nest Unit) : n.number.toMarks = n.toMarks := by
  conv_rhs => rw [← bare_number n, bare, toMarks_map]

/-- The numbers of the groups are the ranks of their heights. -/
theorem labels_number (n : Nest Unit) : n.number.labels = ranks n.heights.1.labels := by
  obtain ⟨t, -, h₂, h₃⟩ := exists_number n
  rw [← h₂, labels_map, h₃, List.map_snd_zip (by simp)]

/-- **Block extraction numbers the groups.** -/
theorem numbered_number (n : Nest Unit) : n.number.Numbered := by
  obtain ⟨t, h₁, h₂, h₃⟩ := exists_number n
  set hs := n.heights.1.labels with hhs
  have hlen : t.labels.length = hs.length := by simp [h₃]
  have hlabels : n.number.labels = ranks hs := labels_number n
  have hmem : ∀ x ∈ t.labels, ∃ i, x = (hs[i], rank hs i) := by
    intro x hx
    obtain ⟨i, hi, rfl⟩ := List.mem_iff_getElem.1 (h₃ ▸ hx)
    exact ⟨⟨i, by simpa using hi⟩, by simp [ranks_eq]⟩
  have hbelow : t.Below Prod.fst n.heights.2 := by
    have := below_heights n
    rwa [← h₁, below_map] at this
  refine ⟨by rw [hlabels, length_ranks]; exact ranks_perm hs, ?_⟩
  rw [hlabels, length_ranks, ← h₂, below_map]
  -- ranks descend as heights do
  refine hbelow.of_lt (fun x hx _ => ?_) fun x hx y hy hxy => ?_
  · obtain ⟨i, rfl⟩ := hmem x hx
    exact rank_lt i
  · obtain ⟨i, rfl⟩ := hmem x hx
    obtain ⟨j, rfl⟩ := hmem y hy
    exact rank_lt_of_lt hxy

/-- The nests whose texts, with references for their groups, are the blocks:
    the insides of the groups by number, and the whole. -/
def layers (n : Nest Nat) : List (Nest Nat) :=
  (List.range n.groups.length).map (fun i => (n.groups.lookup i).getD done) ++ [n]

theorem blocks_eq (n : Nest Nat) : n.blocks = n.layers.map blockText := by
  simp [blocks, layers]

@[simp] theorem length_layers (n : Nest Nat) : n.layers.length = n.labels.length + 1 := by
  simp [layers]

theorem layers_getElem?_length (n : Nest Nat) : n.layers[n.labels.length]? = some n := by
  simp [layers]

/-- A key that occurs once is looked up to its value. -/
theorem lookup_eq_some {l : List (Nat × β)} (hl : (l.map Prod.fst).Nodup) {g : Nat × β}
    (hg : g ∈ l) : l.lookup g.1 = some g.2 := by
  induction l with
  | nil => cases hg
  | cons x l ih =>
    obtain ⟨hx, hl⟩ := List.nodup_cons.1 hl
    rcases List.mem_cons.1 hg with rfl | hg
    · exact List.lookup_cons_self
    · have : g.1 ≠ x.1 := fun h => hx (h ▸ List.mem_map_of_mem hg)
      rw [List.lookup_cons, beq_false_of_ne this, ih hl hg]

namespace Numbered

variable {n : Nest Nat} (hn : n.Numbered)
include hn

theorem nodup : n.labels.Nodup := hn.perm.nodup_iff.2 List.nodup_range

theorem mem_labels {i : Nat} : i ∈ n.labels ↔ i < n.labels.length := by
  rw [hn.perm.mem_iff, List.mem_range]

theorem lookup {g : Nat × Nest Nat} (hg : g ∈ n.groups) : n.groups.lookup g.1 = some g.2 :=
  lookup_eq_some (by rw [map_fst_groups]; exact hn.nodup) hg

theorem lt_of_mem_groups {g : Nat × Nest Nat} (hg : g ∈ n.groups) : g.1 < n.labels.length := by
  rw [← hn.mem_labels, ← map_fst_groups]
  exact List.mem_map_of_mem hg

/-- The layer of a number is the inside of the group with that number. -/
theorem layers_getElem? {g : Nat × Nest Nat} (hg : g ∈ n.groups) :
    n.layers[g.1]? = some g.2 := by
  have := hn.lt_of_mem_groups hg
  simp [layers, List.getElem?_append_left, this, hn.lookup hg]

/-- A layer is the inside of the group of its number, or the whole. -/
theorem eq_of_layers_getElem? {i : Nat} {m : Nest Nat} (h : n.layers[i]? = some m) :
    (i, m) ∈ n.groups ∨ i = n.labels.length ∧ m = n := by
  rcases Nat.lt_trichotomy i n.labels.length with hi | rfl | hi
  · left
    rw [← hn.mem_labels, ← map_fst_groups] at hi
    obtain ⟨g, hg, rfl⟩ := List.mem_map.1 hi
    rw [hn.layers_getElem? hg, Option.some.injEq] at h
    exact h ▸ hg
  · right
    rw [layers_getElem?_length, Option.some.injEq] at h
    exact ⟨rfl, h.symm⟩
  · rw [List.getElem?_eq_none (by simp; omega)] at h
    cases h

theorem groups_subset_of_layer {i : Nat} {m : Nest Nat} (h : n.layers[i]? = some m) :
    m.groups ⊆ n.groups := by
  rcases hn.eq_of_layers_getElem? h with h | ⟨-, rfl⟩
  · exact groups_subset h
  · exact List.Subset.refl _

/-- The groups of a layer have lower numbers than the layer. -/
theorem lt_of_mem_kids {i : Nat} {m : Nest Nat} (h : n.layers[i]? = some m) {a : Nat}
    (ha : a ∈ m.kids) : a < i := by
  rcases hn.eq_of_layers_getElem? h with h | ⟨rfl, rfl⟩
  · exact (hn.below.of_mem_groups h).lt_of_mem_kids ha
  · exact hn.below.lt_of_mem_kids ha

/-- The layers are the insides of all groups and the whole. -/
theorem layers_perm : n.layers.Perm (n.groups.map Prod.snd ++ [n]) := by
  refine List.Perm.append_right _ ?_
  have h₁ : n.groups.map Prod.snd =
      n.labels.map fun i => (n.groups.lookup i).getD done := by
    rw [← map_fst_groups, List.map_map]
    refine List.map_congr_left fun g hg => ?_
    rw [Function.comp_apply, hn.lookup hg, Option.getD_some]
  rw [h₁, length_groups]
  exact (hn.perm.map _).symm

/-- All layers but the whole are the insides of groups. -/
theorem exists_layers : ∃ ms, n.layers = ms ++ [n] ∧ ms.Perm (n.groups.map Prod.snd) :=
  ⟨_, rfl, (List.perm_append_right_iff [n]).1 hn.layers_perm⟩

/-- **Every group is a direct group of exactly one layer.** -/
theorem kids_perm : (n.layers.flatMap kids).Perm (List.range n.labels.length) := by
  have h : (n.groups.map Prod.snd ++ [n]).flatMap kids =
      (n.groups.flatMap fun g => g.2.kids) ++ n.kids := by
    rw [List.flatMap_append, List.flatMap_singleton, List.flatMap_map]
  have h₁ : (n.layers.flatMap kids).Perm ((n.groups.flatMap fun g => g.2.kids) ++ n.kids) :=
    h ▸ hn.layers_perm.flatMap_right _
  exact (h₁.trans List.perm_append_comm).trans ((labels_perm n).symm.trans hn.perm)

end Numbered

end Nest

end Query

end RecordFilter
