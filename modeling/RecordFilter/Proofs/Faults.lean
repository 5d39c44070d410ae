/-
  Proofs.Faults — why a text is not a comparison.

  Several things can be wrong with a text at once.  Which of them is reported is told here
  by places outside quotes alone, without a reader that goes through the text.

  * `unquoted`: the characters outside quotes;
  * `FirstName`: the first name outside quotes, with the text before and behind it;
  * `Trails`, `Misplaced`: when the text around the name is not in the place of an operator;
  * `HasFault`: the faults, each of them where those before it are not;
  * `exists_parts`: the parts of a text around its first name;
  * `readComparison_eq_error_iff`: these are the faults that are reported.
-/
import RecordFilter.Proofs.Places
import RecordFilter.Proofs.Tokens

namespace RecordFilter

namespace Query

/-! ## Outside quotes -/

/-- The characters outside quotes, in order.  The quotes are none of them. -/
def unquoted (t : Text) : Text :=
  (t.zipIdx.filter fun x => x.1 ≠ '"' ∧ OutsideAt t x.2).map Prod.fst

theorem mem_unquoted_iff {x : Char} {t : Text} :
    x ∈ unquoted t ↔ x ≠ '"' ∧ ∃ i, StandsAt x t i := by
  simp only [unquoted, List.mem_map, List.mem_filter, decide_eq_true_eq, Prod.exists,
    List.mem_zipIdx_iff_getElem?, exists_and_right, exists_eq_right, StandsAt]
  constructor
  · rintro ⟨i, hi, hx, ho⟩
    exact ⟨hx, i, hi, ho⟩
  · rintro ⟨hx, i, hi, ho⟩
    exact ⟨i, hi, hx, ho⟩

theorem outsideAt_append {s : Text} (h : Even (s.count '"')) (t : Text) (i : Nat) :
    OutsideAt (s ++ t) (s.length + i) ↔ OutsideAt t i := by
  rw [OutsideAt, List.take_length_add_append, List.count_append, Nat.even_add, OutsideAt]
  exact iff_true_left h

theorem standsAt_append {s : Text} (h : Even (s.count '"')) {x : Char} {t : Text} {i : Nat} :
    StandsAt x (s ++ t) (s.length + i) ↔ StandsAt x t i := by
  rw [StandsAt, StandsAt, outsideAt_append h, List.getElem?_append_right (Nat.le_add_right _ _),
    Nat.add_sub_cancel_left]

theorem standsAt_append_left {s t : Text} {i : Nat} (hi : i < s.length) {x : Char} :
    StandsAt x (s ++ t) i ↔ StandsAt x s i := by
  simp only [StandsAt, OutsideAt, List.getElem?_append_left hi,
    List.take_append_of_le_length hi.le]

theorem unquoted_append {s : Text} (h : Even (s.count '"')) (t : Text) :
    unquoted (s ++ t) = unquoted s ++ unquoted t := by
  have hs : s.zipIdx.filter (fun x => x.1 ≠ '"' ∧ OutsideAt (s ++ t) x.2) =
      s.zipIdx.filter fun x => x.1 ≠ '"' ∧ OutsideAt s x.2 := by
    refine List.filter_congr fun x hx => decide_eq_decide.2 (and_congr_right fun _ => ?_)
    have hlt : x.2 < s.length := List.snd_lt_of_mem_zipIdx hx
    simp only [OutsideAt, List.take_append_of_le_length hlt.le]
  have ht : (t.zipIdx s.length).filter (fun x => x.1 ≠ '"' ∧ OutsideAt (s ++ t) x.2) =
      (t.zipIdx.filter fun x => x.1 ≠ '"' ∧ OutsideAt t x.2).map
        fun x => (x.1, s.length + x.2) := by
    rw [List.zipIdx_eq_map_add, List.filter_map]
    refine congrArg _ (List.filter_congr fun x _ => ?_)
    simp only [Function.comp_apply, outsideAt_append h]
  rw [unquoted, List.zipIdx_append, List.filter_append, List.map_append, Nat.zero_add, hs, ht,
    List.map_map]
  rfl

theorem unquoted_of_notMem {t : Text} (h : '"' ∉ t) : unquoted t = t := by
  have hall : t.zipIdx.filter (fun x => x.1 ≠ '"' ∧ OutsideAt t x.2) = t.zipIdx := by
    refine List.filter_eq_self.2 fun x hx => decide_eq_true ⟨fun hq => ?_, ?_⟩
    · exact h (hq ▸ List.fst_mem_of_mem_zipIdx hx)
    · rw [outsideAt_iff, quotedAfter_of_notMem fun hq => h (List.mem_of_mem_take hq)]
  rw [unquoted, hall, List.zipIdx_map_fst]

theorem unquoted_quoted {v : Text} (h : '"' ∉ v) : unquoted (quoted v) = [] := by
  refine List.eq_nil_iff_forall_not_mem.2 fun x hx => ?_
  obtain ⟨hx, i, hi, ho⟩ := mem_unquoted_iff.1 hx
  cases i with
  | zero => exact hx (Option.some.inj hi).symm
  | succ i =>
    -- behind the first quote there is none before the last one
    have hi : (v ++ ['"'])[i]? = some x := hi
    have hlt : i < v.length := by
      by_contra hge
      rw [List.getElem?_append_right (Nat.le_of_not_lt hge)] at hi
      exact hx (List.mem_singleton.1 (List.mem_of_getElem? hi))
    have htake : (quoted v).take (i + 1) = '"' :: v.take i := by
      simp [quoted, List.take_append_of_le_length hlt.le]
    rw [OutsideAt, htake, List.count_cons_self,
      List.count_eq_zero_of_not_mem fun hq => h (List.mem_of_mem_take hq)] at ho
    exact absurd ho (by decide)

/-! ## The first name -/

/-- `name` is the first name in the text outside quotes, as long as it goes on. -/
structure FirstName (t pre name post : Text) : Prop where
  eq_append : t = pre ++ name ++ post
  even_count : Even (pre.count '"')
  isNameChar_unquoted : ∀ x ∈ unquoted pre, isNameChar x = false
  ne_nil : name ≠ []
  isNameChar_name : ∀ x ∈ name, isNameChar x
  isNameChar_head : ∀ x ∈ post.head?, isNameChar x = false

theorem ne_quote_of_isNameChar {x : Char} (h : isNameChar x) : x ≠ '"' := by
  rintro rfl
  cases h

theorem mem_unquoted_cons {x : Char} (h : isNameChar x) (t : Text) : x ∈ unquoted (x :: t) :=
  mem_unquoted_iff.2 ⟨ne_quote_of_isNameChar h, 0, rfl, .zero⟩

theorem exists_firstName {t : Text} (h : ∃ x ∈ unquoted t, isNameChar x) :
    ∃ pre name post, FirstName t pre name post := by
  classical
  have hplace : ∃ i, ∃ x, StandsAt x t i ∧ isNameChar x := by
    obtain ⟨x, hx, hname⟩ := h
    obtain ⟨-, i, hi⟩ := mem_unquoted_iff.1 hx
    exact ⟨i, x, hi, hname⟩
  -- the name starts at the first of these places
  obtain ⟨x, hx, hname⟩ := Nat.find_spec hplace
  have hleast {j : Nat} (hj : j < Nat.find hplace) {y : Char} (hy : StandsAt y t j) :
      isNameChar y = false := by
    by_contra hnot
    exact Nat.find_min hplace hj ⟨y, hy, by simpa using hnot⟩
  set i := Nat.find hplace
  have hdrop : t.drop i = x :: t.drop (i + 1) := by
    obtain ⟨hlt, hget⟩ := List.getElem?_eq_some_iff.1 hx.1
    rw [List.drop_eq_getElem_cons hlt, hget]
  refine ⟨t.take i, (t.drop i).takeWhile isNameChar, (t.drop i).dropWhile isNameChar, ?_, hx.2,
    fun y hy => ?_, ?_, fun y hy => List.mem_takeWhile_imp hy, fun y hy => ?_⟩
  · rw [List.append_assoc, List.takeWhile_append_dropWhile, List.take_append_drop]
  · obtain ⟨-, j, hj, ho⟩ := mem_unquoted_iff.1 hy
    have hlt : j < i := by
      have := (List.getElem?_eq_some_iff.1 hj).1
      rw [List.length_take] at this
      omega
    rw [List.getElem?_take_of_lt hlt] at hj
    rw [OutsideAt, List.take_take, Nat.min_eq_left hlt.le] at ho
    exact hleast hlt ⟨hj, ho⟩
  · rw [hdrop, List.takeWhile_cons_of_pos hname]
    exact List.cons_ne_nil _ _
  · have := List.head?_dropWhile_not isNameChar (t.drop i)
    rw [hy] at this
    exact this

namespace FirstName

variable {t pre name post pre' name' post' : Text}

theorem exists_mem_unquoted (h : FirstName t pre name post) : ∃ x ∈ unquoted t, isNameChar x := by
  obtain ⟨x, xs, rfl⟩ := List.exists_cons_of_ne_nil h.ne_nil
  have hx : isNameChar x := h.isNameChar_name x List.mem_cons_self
  refine ⟨x, ?_, hx⟩
  rw [h.eq_append, List.append_assoc, unquoted_append h.even_count]
  exact List.mem_append_right _ (mem_unquoted_cons hx _)

/-- No name starts before the first one. -/
theorem length_le (h : FirstName t pre name post) (h' : FirstName t pre' name' post') :
    pre.length ≤ pre'.length := by
  obtain ⟨x, xs, rfl⟩ := List.exists_cons_of_ne_nil h'.ne_nil
  have hx : isNameChar x := h'.isNameChar_name x List.mem_cons_self
  have heq := h.eq_append.symm.trans h'.eq_append
  rw [List.append_assoc, List.append_assoc, List.append_eq_append_iff] at heq
  obtain ⟨u, rfl, -⟩ | ⟨u, rfl, hu⟩ := heq
  · simp
  -- the text between starts with a character of the other name, unless there is none
  cases u with
  | nil => simp
  | cons y u =>
    obtain rfl : x = y := (List.cons.inj hu).1
    have hmem : x ∈ unquoted (pre' ++ x :: u) := by
      rw [unquoted_append h'.even_count]
      exact List.mem_append_right _ (mem_unquoted_cons hx u)
    rw [h.isNameChar_unquoted x hmem] at hx
    cases hx

theorem takeWhile_eq (h : FirstName t pre name post) :
    (name ++ post).takeWhile isNameChar = name := by
  rw [List.takeWhile_append_of_pos h.isNameChar_name]
  cases post with
  | nil => simp
  | cons x post => simp [h.isNameChar_head x rfl]

theorem unique (h : FirstName t pre name post) (h' : FirstName t pre' name' post') :
    pre = pre' ∧ name = name' ∧ post = post' := by
  have heq := h.eq_append.symm.trans h'.eq_append
  rw [List.append_assoc, List.append_assoc] at heq
  obtain ⟨rfl, hrest⟩ := List.append_inj heq (Nat.le_antisymm (h.length_le h') (h'.length_le h))
  obtain rfl : name = name' := by rw [← h.takeWhile_eq, hrest, h'.takeWhile_eq]
  exact ⟨rfl, rfl, List.append_cancel_left hrest⟩

end FirstName

/-- There is one first name, if there is any. -/
theorem exists_mem_unquoted_iff {t : Text} : (∃ x ∈ unquoted t, isNameChar x) ↔
    ∃! s : Text × Text × Text, FirstName t s.1 s.2.1 s.2.2 := by
  constructor
  · intro h
    obtain ⟨pre, name, post, hfirst⟩ := exists_firstName h
    refine ⟨(pre, name, post), hfirst, fun s hs => ?_⟩
    obtain ⟨h₁, h₂, h₃⟩ := hs.unique hfirst
    exact Prod.ext h₁ (Prod.ext h₂ h₃)
  · rintro ⟨s, hs, -⟩
    exact hs.exists_mem_unquoted

/-! ## Cut at the quotes -/

theorem assemble_cons_quoted (stray v s : Text) (tail : List (Text × Text)) :
    assemble stray ((v, s) :: tail) = stray ++ (quoted v ++ assemble s tail) := by
  simp [assemble]

theorem even_count_of_notMem {s : Text} (h : '"' ∉ s) : Even (s.count '"') := by
  rw [List.count_eq_zero_of_not_mem h]
  exact .zero

theorem count_quoted {v : Text} (h : '"' ∉ v) : (quoted v).count '"' = 2 := by
  simp [quoted, List.count_eq_zero_of_not_mem h]

theorem exists_assemble {t : Text} (h : Even (t.count '"')) :
    ∃ stray tail, t = assemble stray tail ∧ QuoteFree stray tail := by
  induction hl : t.length using Nat.strong_induction_on generalizing t with
  | _ l ih =>
    by_cases hq : '"' ∈ t
    · obtain ⟨s, v, u, rfl, hs, hv⟩ := exists_quoted (quotedAfter_eq_false_iff.2 h) hq
      have hu : Even (u.count '"') := by
        simpa [List.count_append, List.count_eq_zero_of_not_mem hs, count_quoted hv,
          Nat.even_add] using h
      obtain ⟨stray, tail, rfl, hfree⟩ := ih u.length (by subst hl; simp [quoted]; omega) hu rfl
      refine ⟨s, (v, stray) :: tail, (assemble_cons_quoted ..).symm, hs, ?_⟩
      exact List.forall_mem_cons.2 ⟨⟨hv, hfree.1⟩, hfree.2⟩
    · exact ⟨t, [], by simp [assemble], hq, by simp⟩

variable {stray : Text} {tail : List (Text × Text)}

theorem QuoteFree.of_cons {v s : Text} (h : QuoteFree stray ((v, s) :: tail)) :
    '"' ∉ v ∧ QuoteFree s tail :=
  have h₁ := List.forall_mem_cons.1 h.2
  ⟨h₁.1.1, h₁.1.2, h₁.2⟩

theorem count_assemble (h : QuoteFree stray tail) :
    (assemble stray tail).count '"' = 2 * tail.length := by
  induction tail generalizing stray with
  | nil => simp [assemble, List.count_eq_zero_of_not_mem h.1]
  | cons x tail ih =>
    rw [assemble_cons_quoted, List.count_append, List.count_append,
      List.count_eq_zero_of_not_mem h.1, count_quoted h.of_cons.1, ih h.of_cons.2, List.length_cons]
    omega

theorem unquoted_assemble (h : QuoteFree stray tail) :
    unquoted (assemble stray tail) = stray ++ (tail.map Prod.snd).flatten := by
  induction tail generalizing stray with
  | nil => simp [assemble, unquoted_of_notMem h.1]
  | cons x tail ih =>
    have hquoted : Even ((quoted x.1).count '"') := by simp [count_quoted h.of_cons.1]
    rw [assemble_cons_quoted, unquoted_append (even_count_of_notMem h.1),
      unquoted_append hquoted, unquoted_of_notMem h.1, unquoted_quoted h.of_cons.1, ih h.of_cons.2,
      List.nil_append, List.map_cons, List.flatten_cons]

/-! ## The place of an operator -/

/-- Unquoted text stands behind a quoted value. -/
def Trails (t : Text) : Prop := ∃ i x, StandsAt x t i ∧ x ≠ '"' ∧ '"' ∈ t.take i

theorem trails_append_iff {s v : Text} (hs : '"' ∉ s) (hv : '"' ∉ v) (u : Text) :
    Trails (s ++ (quoted v ++ u)) ↔ unquoted u ≠ [] := by
  have heven : Even ((s ++ quoted v).count '"') := by
    simp [List.count_append, List.count_eq_zero_of_not_mem hs, count_quoted hv]
  rw [← List.append_assoc]
  constructor
  · rintro ⟨i, x, hx, hne, hq⟩
    have hi : (s ++ quoted v).length ≤ i := by
      -- in `s` no quote is before the place, and in the value nothing is outside quotes
      by_contra hlt
      rw [not_le] at hlt
      rw [List.take_append_of_le_length hlt.le] at hq
      rw [standsAt_append_left hlt] at hx
      rcases Nat.lt_or_ge i s.length with his | his
      · rw [List.take_append_of_le_length his.le] at hq
        exact hs (List.mem_of_mem_take hq)
      · obtain ⟨j, rfl⟩ := Nat.exists_eq_add_of_le his
        have hmem : x ∈ unquoted (quoted v) :=
          mem_unquoted_iff.2 ⟨hne, j, (standsAt_append (even_count_of_notMem hs)).1 hx⟩
        rw [unquoted_quoted hv] at hmem
        cases hmem
    obtain ⟨j, rfl⟩ := Nat.exists_eq_add_of_le hi
    exact List.ne_nil_of_mem (mem_unquoted_iff.2 ⟨hne, j, (standsAt_append heven).1 hx⟩)
  · intro h
    obtain ⟨x, hx⟩ := List.exists_mem_of_ne_nil _ h
    obtain ⟨hne, i, hi⟩ := mem_unquoted_iff.1 hx
    refine ⟨_, x, (standsAt_append heven).2 hi, hne, ?_⟩
    rw [List.take_length_add_append]
    simp [quoted]

theorem trails_assemble_iff (h : QuoteFree stray tail) :
    Trails (assemble stray tail) ↔ (tail.map Prod.snd).flatten ≠ [] := by
  cases tail with
  | nil =>
    refine iff_of_false ?_ (by simp)
    rintro ⟨i, x, -, -, hq⟩
    rw [assemble, List.flatMap_nil, List.append_nil] at hq
    exact h.1 (List.mem_of_mem_take hq)
  | cons x tail =>
    rw [assemble_cons_quoted, trails_append_iff h.1 h.of_cons.1, unquoted_assemble h.of_cons.2,
      List.map_cons, List.flatten_cons]

/-- The text around the name is not in the place of an operator: it stands on both sides of
    the name, or behind a value. -/
def Misplaced (pre post : Text) : Prop :=
  unquoted pre ≠ [] ∧ unquoted post ≠ [] ∨ Trails (pre ++ post)

/-! ## The parts around the first name -/

theorem takeName_append {us : List Text} (hus : ∀ x ∈ us.flatten, isNameChar x = false)
    {before name after : Text}
    (h : splitName? (before ++ name ++ after) = some (before, name, after)) (vs : List Text) :
    takeName (us ++ (before ++ name ++ after) :: vs) =
      (some name, us.flatten ++ (before ++ after ++ vs.flatten)) := by
  induction us with
  | nil => simp only [List.nil_append, takeName, h, List.flatten_nil]
  | cons u us ih =>
    rw [List.flatten_cons, List.forall_mem_append] at hus
    rw [List.cons_append, takeName, splitName?_eq_none_iff.2 hus.1]
    simp only [ih hus.2]
    rw [List.flatten_cons, List.append_assoc u]

theorem takeName_of_nameless {us : List Text} (hus : ∀ x ∈ us.flatten, isNameChar x = false) :
    takeName us = (none, us.flatten) := by
  induction us with
  | nil => rfl
  | cons u us ih =>
    rw [List.flatten_cons, List.forall_mem_append] at hus
    simp only [takeName, splitName?_eq_none_iff.2 hus.1, ih hus.2, List.flatten_cons]

variable {t pre name post : Text}

theorem even_count_post (h : FirstName t pre name post) (heven : Even (t.count '"')) :
    Even (post.count '"') := by
  have hname := even_count_of_notMem (quote_notMem_name h.isNameChar_name)
  rw [h.eq_append, List.count_append, List.count_append, Nat.even_add, Nat.even_add] at heven
  exact (heven.1 (by simp [h.even_count, hname]))

/-- The parts of the text are those around its first name. -/
structure Parts.Around (p : Parts) (t pre post : Text) : Prop where
  isParts : ∃ stray tail,
    values? (t.pieces '"') = some (stray, tail) ∧ Parts.of? stray tail = some p
  token_eq : p.token = unquoted (pre ++ post)
  length_values : p.values.length = t.count '"' / 2
  in_place_iff : (p.trailing = [] ∧ (p.before = [] ∨ p.between = [])) ↔ ¬ Misplaced pre post

theorem isNameChar_head_of_assemble (h : ∀ x ∈ (assemble stray tail).head?, isNameChar x = false) :
    ∀ x ∈ stray.head?, isNameChar x = false := by
  cases stray with
  | nil => simp
  | cons x stray => exact h

/-- The name stands before all values. -/
theorem exists_parts_of_bare {s u : Text} (hs : '"' ∉ s) (hu : QuoteFree u tail)
    (h : FirstName t s name (assemble u tail)) : ∃ p : Parts, p.Around t s (assemble u tail) := by
  have ht : t = assemble (s ++ name ++ u) tail := by
    rw [h.eq_append, assemble, assemble, List.append_assoc (s ++ name)]
  have hfree : QuoteFree (s ++ name ++ u) tail :=
    ⟨by simp [hs, quote_notMem_name h.isNameChar_name, hu.1], hu.2⟩
  have hbefore : ∀ x ∈ s, isNameChar x = false := unquoted_of_notMem hs ▸ h.isNameChar_unquoted
  have hsplit : splitName? (s ++ name ++ u) = some (s, name, u) :=
    splitName?_append hbefore h.ne_nil h.isNameChar_name
      (isNameChar_head_of_assemble h.isNameChar_head)
  have hrest : s ++ assemble u tail = assemble (s ++ u) tail := by
    rw [assemble, assemble, List.append_assoc]
  have hfree' : QuoteFree (s ++ u) tail := ⟨by simp [hs, hu.1], hu.2⟩
  refine ⟨⟨name, s, u, (tail.map Prod.snd).flatten, tail.map Prod.fst⟩,
    ⟨_, _, ht ▸ values?_assemble hfree, by rw [Parts.of?, hsplit]⟩, ?_, ?_, ?_⟩
  · rw [hrest, unquoted_assemble hfree', Parts.token]
  · rw [ht, count_assemble hfree, List.length_map]
    omega
  · rw [Misplaced, hrest, trails_assemble_iff hfree', unquoted_of_notMem hs, unquoted_assemble hu]
    simp only [ne_eq, List.append_eq_nil_iff]
    tauto

/-- Some values stand before the name. -/
theorem exists_parts_of_quoted {s v b u : Text} {pairs : List (Text × Text)}
    (hs : QuoteFree s (pairs ++ [(v, b)])) (hu : QuoteFree u tail)
    (h : FirstName t (assemble s (pairs ++ [(v, b)])) name (assemble u tail)) :
    ∃ p : Parts, p.Around t (assemble s (pairs ++ [(v, b)])) (assemble u tail) := by
  have hv : '"' ∉ v ∧ '"' ∉ b := hs.2 (v, b) (by simp)
  have hbefore := h.isNameChar_unquoted
  simp only [unquoted_assemble hs, List.map_append, List.flatten_append, List.map_singleton,
    List.flatten_singleton, List.forall_mem_append] at hbefore
  obtain ⟨hbare, hpairs, hb⟩ := hbefore
  have hsplit : splitName? (b ++ name ++ u) = some (b, name, u) :=
    splitName?_append hb h.ne_nil h.isNameChar_name (isNameChar_head_of_assemble h.isNameChar_head)
  have hassemble (w : Text) : assemble s (pairs ++ [(v, b)]) ++ (w ++ assemble u tail) =
      assemble s (pairs ++ (v, b ++ w ++ u) :: tail) := by
    simp [assemble]
  have hfree {w : Text} (hw : '"' ∉ w) : QuoteFree s (pairs ++ (v, b ++ w ++ u) :: tail) := by
    refine ⟨hs.1, List.forall_mem_append.2 ⟨fun x hx => hs.2 x (List.mem_append_left _ hx), ?_⟩⟩
    exact List.forall_mem_cons.2 ⟨⟨hv.1, by simp [hv.2, hw, hu.1]⟩, hu.2⟩
  have ht := h.eq_append
  rw [List.append_assoc, hassemble] at ht
  have hrest := hassemble []
  rw [List.nil_append, List.append_nil] at hrest
  have hname := hfree (quote_notMem_name h.isNameChar_name)
  have hnil := hfree (w := []) (by simp)
  rw [List.append_nil] at hnil
  refine ⟨⟨name, s, [], (pairs.map Prod.snd).flatten ++ (b ++ u ++ (tail.map Prod.snd).flatten),
      (pairs ++ (v, b ++ name ++ u) :: tail).map Prod.fst⟩,
    ⟨_, _, ht ▸ values?_assemble hname, ?_⟩, ?_, ?_, ?_⟩
  · rw [Parts.of?, splitName?_eq_none_iff.2 hbare]
    simp only [List.map_append, List.map_cons, takeName_append hpairs hsplit]
  · rw [hrest, unquoted_assemble hnil, Parts.token]
    simp
  · rw [ht, count_assemble hname, List.length_map]
    omega
  · rw [Misplaced, hrest, trails_assemble_iff hnil, unquoted_assemble hs, unquoted_assemble hu]
    simp only [ne_eq, List.map_append, List.map_cons, List.flatten_append, List.flatten_cons,
      List.append_eq_nil_iff]
    tauto

theorem exists_parts (h : FirstName t pre name post) (heven : Even (t.count '"')) :
    ∃ p : Parts, p.Around t pre post := by
  obtain ⟨s, pairs, rfl, hs⟩ := exists_assemble h.even_count
  obtain ⟨u, tail, rfl, hu⟩ := exists_assemble (even_count_post h heven)
  rcases List.eq_nil_or_concat pairs with rfl | ⟨pairs, ⟨v, b⟩, rfl⟩
  · rw [assemble, List.flatMap_nil, List.append_nil] at h ⊢
    exact exists_parts_of_bare hs.1 hu h
  · rw [List.concat_eq_append] at hs h ⊢
    exact exists_parts_of_quoted hs hu h

/-! ## Faults -/

/-- What is wrong with a text.  Each fault is one of a text that has none of those before.
    The text without its first name is `pre ++ post`. -/
inductive HasFault (t : Text) : Fault → Prop
  /-- A quote is left open. -/
  | openQuote (hodd : Odd (t.count '"')) : HasFault t .openQuote
  /-- No character of a name stands outside quotes. -/
  | missingName (heven : Even (t.count '"')) (hname : ∀ x ∈ unquoted t, isNameChar x = false) :
      HasFault t .missingName
  /-- What is unquoted of it is no operator, or not in the place of one. -/
  | unknownOperator {pre name post : Text} (heven : Even (t.count '"'))
      (hname : FirstName t pre name post)
      (hop : (∀ op : Operator, op.token ≠ unquoted (pre ++ post)) ∨ Misplaced pre post) :
      HasFault t (.unknownOperator (unquoted (pre ++ post)) (hint (unquoted (pre ++ post))))
  /-- It is an operator in its place, but takes another number of values. -/
  | wrongOperandCount {pre name post : Text} {op : Operator} (heven : Even (t.count '"'))
      (hname : FirstName t pre name post) (hop : op.token = unquoted (pre ++ post))
      (hplace : ¬ Misplaced pre post) (hcount : t.count '"' / 2 ≠ op.arity) :
      HasFault t (.wrongOperandCount op (t.count '"' / 2))

theorem readComparison_of_odd (h : Odd (t.count '"')) : readComparison t = .error .openQuote := by
  have hvalues : values? (t.pieces '"') = none := by
    refine Option.eq_none_iff_forall_not_mem.2 fun x hx => ?_
    obtain ⟨stray, tail⟩ := x
    obtain ⟨rfl, hfree⟩ := eq_assemble_of_values? t hx
    rw [count_assemble hfree] at h
    exact Nat.not_even_iff_odd.2 h (even_two_mul _)
  rw [readComparison, hvalues]

theorem readComparison_of_nameless (heven : Even (t.count '"'))
    (h : ∀ x ∈ unquoted t, isNameChar x = false) : readComparison t = .error .missingName := by
  obtain ⟨stray, tail, rfl, hfree⟩ := exists_assemble heven
  rw [unquoted_assemble hfree, List.forall_mem_append] at h
  have hparts : Parts.of? stray tail = none := by
    rw [Parts.of?, splitName?_eq_none_iff.2 h.1]
    simp only [takeName_of_nameless h.2]
  simp only [readComparison, values?_assemble hfree, hparts]

namespace Parts.Around

variable {p : Parts}

theorem operator?_eq_some_iff (h : p.Around t pre post) {op : Operator} :
    p.operator? = some op ↔ op.token = unquoted (pre ++ post) ∧ ¬ Misplaced pre post := by
  rw [Parts.operator?, ← h.token_eq, ← h.in_place_iff]
  split_ifs with hplace
  · rw [Operator.ofToken?_eq_some_iff]
    exact (and_iff_left hplace).symm
  · simp [hplace]

theorem operator?_eq_none_iff (h : p.Around t pre post) :
    p.operator? = none ↔
      (∀ op : Operator, op.token ≠ unquoted (pre ++ post)) ∨ Misplaced pre post := by
  rw [Option.eq_none_iff_forall_ne_some]
  simp only [ne_eq, h.operator?_eq_some_iff, not_and_or, not_not]
  exact ⟨fun hall => or_iff_not_imp_right.2 fun hplace op => (hall op).resolve_right hplace,
    fun hor op => hor.imp_left fun hall => hall op⟩

theorem readComparison_of_none (h : p.Around t pre post) (hop : p.operator? = none) :
    readComparison t =
      .error (.unknownOperator (unquoted (pre ++ post)) (hint (unquoted (pre ++ post)))) := by
  obtain ⟨stray, tail, hvalues, hparts⟩ := h.isParts
  simp only [readComparison, hvalues, hparts, hop, h.token_eq]

theorem readComparison_of_some (h : p.Around t pre post) {op : Operator}
    (hop : p.operator? = some op) : readComparison t =
      if t.count '"' / 2 = op.arity then .ok ⟨p.name, op, p.values⟩
      else .error (.wrongOperandCount op (t.count '"' / 2)) := by
  obtain ⟨stray, tail, hvalues, hparts⟩ := h.isParts
  simp only [readComparison, hvalues, hparts, hop, Comparison.of?, h.length_values]
  split_ifs <;> rfl

end Parts.Around

theorem hasFault_of_readComparison {fault : Fault} (h : readComparison t = .error fault) :
    HasFault t fault := by
  rcases Nat.even_or_odd (t.count '"') with heven | hodd
  · by_cases hname : ∃ x ∈ unquoted t, isNameChar x
    · obtain ⟨pre, name, post, hfirst⟩ := exists_firstName hname
      obtain ⟨p, hp⟩ := exists_parts hfirst heven
      cases hop : p.operator? with
      | none =>
        rw [hp.readComparison_of_none hop] at h
        exact Except.error.inj h ▸ .unknownOperator heven hfirst (hp.operator?_eq_none_iff.1 hop)
      | some op =>
        obtain ⟨htoken, hplace⟩ := hp.operator?_eq_some_iff.1 hop
        rw [hp.readComparison_of_some hop] at h
        split_ifs at h with hcount
        exact Except.error.inj h ▸ .wrongOperandCount heven hfirst htoken hplace hcount
    · have hnone : ∀ x ∈ unquoted t, isNameChar x = false := by simpa using hname
      rw [readComparison_of_nameless heven hnone] at h
      exact Except.error.inj h ▸ .missingName heven hnone
  · rw [readComparison_of_odd hodd] at h
    exact Except.error.inj h ▸ .openQuote hodd

theorem HasFault.readComparison_eq {fault : Fault} (h : HasFault t fault) :
    readComparison t = .error fault := by
  cases h with
  | openQuote hodd => exact readComparison_of_odd hodd
  | missingName heven hname => exact readComparison_of_nameless heven hname
  | unknownOperator heven hname hop =>
    obtain ⟨p, hp⟩ := exists_parts hname heven
    exact hp.readComparison_of_none (hp.operator?_eq_none_iff.2 hop)
  | wrongOperandCount heven hname hop hplace hcount =>
    obtain ⟨p, hp⟩ := exists_parts hname heven
    rw [hp.readComparison_of_some (hp.operator?_eq_some_iff.2 ⟨hop, hplace⟩), if_neg hcount]

/-- **Why a text is not a comparison.**  The fault that is reported is the first of an open
    quote, no name, no operator in its place and a wrong number of values.  The first name is
    a single one, so the reported operator text and count of values are so too.  As an operand
    of a block the text is reported with its fault as it stands. -/
theorem readComparison_eq_error_iff (t : Text) :
    (∀ fault, readComparison t = .error fault ↔ HasFault t fault) ∧
    ((∃ x ∈ unquoted t, isNameChar x) ↔
      ∃! s : Text × Text × Text, FirstName t s.1 s.2.1 s.2.2) ∧
    ∀ slots e, resolve slots (.comparison t) = .error e ↔
      ∃ fault, HasFault t fault ∧ e = .invalidComparison t fault := by
  have hiff : ∀ fault, readComparison t = .error fault ↔ HasFault t fault := fun _ =>
    ⟨hasFault_of_readComparison, HasFault.readComparison_eq⟩
  refine ⟨hiff, exists_mem_unquoted_iff, fun slots e => ?_⟩
  simp only [← hiff, resolve]
  cases readComparison t with
  | ok c => simp
  | error fault => simp [eq_comm]

/-- On both sides of a name even the text of an operator is none. -/
example : readComparison "=a=\"x\"".toList = .error (.unknownOperator "==".toList none) := by
  decide +kernel

end Query

end RecordFilter
