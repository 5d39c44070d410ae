/-
  Proofs.NumericOrder — the tables of an expression are shown in the order of numbers.

  A request holds its tables in the order of the placeholders' texts, in which `:v10` comes
  before `:v2`.  For a report the rows are sorted again, by the numbers that are read back
  from the placeholders, and then they are the attributes and values in their own order.

  * `Json.pairwise_record`: the members of a table are in the order of their texts;
  * `Report.placeholderNumber`: the number that is read back, and `Report.byNumber`: rows in
    the order of these numbers;
  * `Report.byNumber_eq`: this order is that of the attributes and values;
  * `Report.HasTable`: what a table of a request holds, and `Report.requestTable`: the report
    of a request;
  * `Report.expressionTable_ofPredicate`: the report of a predicate, row by row.
-/
import RecordFilter.Proofs.Placeholders
import RecordFilter.Report

namespace RecordFilter

/-! ## The order of texts -/

theorem Text.precedes_trans {s t u : Text} (h : s.precedes t) (h' : t.precedes u) :
    s.precedes u := by
  induction s generalizing t u with
  | nil =>
    cases u with
    | nil => cases t <;> cases h'
    | cons => rfl
  | cons a s ih =>
    cases t with
    | nil => cases h
    | cons b t =>
      cases u with
      | nil => cases h'
      | cons c u =>
        simp only [precedes, Bool.or_eq_true, Bool.and_eq_true, decide_eq_true_eq,
          beq_iff_eq] at h h' ⊢
        rcases h with h | ⟨rfl, h⟩ <;> rcases h' with h' | ⟨rfl, h'⟩
        · exact Or.inl (h.trans h')
        · exact Or.inl h
        · exact Or.inl h'
        · exact Or.inr ⟨rfl, ih h h'⟩

namespace Json

theorem mem_insert {key : Text} {value : Json} {ms : List (Text × Json)} {m : Text × Json}
    (h : m ∈ insert key value ms) : m = (key, value) ∨ m ∈ ms := by
  induction ms with
  | nil => exact Or.inl (List.mem_singleton.1 h)
  | cons x ms ih =>
    rw [insert] at h
    split_ifs at h
    · rcases List.mem_cons.1 h with h | h
      · exact Or.inl h
      · exact Or.inr (List.mem_cons_of_mem _ h)
    · exact List.mem_cons.1 h
    · rcases List.mem_cons.1 h with h | h
      · exact Or.inr (h ▸ List.mem_cons_self)
      · exact (ih h).imp_right (List.mem_cons_of_mem _)

/-- A member that is put into its place leaves the members in order. -/
theorem pairwise_insert (key : Text) (value : Json) {ms : List (Text × Json)}
    (h : ms.Pairwise fun x y => x.1.precedes y.1) :
    (insert key value ms).Pairwise fun x y => x.1.precedes y.1 := by
  induction ms with
  | nil => exact List.pairwise_singleton _ _
  | cons x ms ih =>
    obtain ⟨k, v⟩ := x
    obtain ⟨hk, hms⟩ := List.pairwise_cons.1 h
    rw [insert]
    split_ifs with hsame hbefore
    · obtain rfl := hsame
      exact List.pairwise_cons.2 ⟨hk, hms⟩
    · refine List.pairwise_cons.2 ⟨fun m hm => ?_, h⟩
      rcases List.mem_cons.1 hm with rfl | hm
      · exact hbefore
      · exact Text.precedes_trans hbefore (hk m hm)
    · -- neither the same key nor an earlier one: it comes later
      have hafter : k.precedes key := by
        by_contra hnot
        exact hsame (Text.eq_of_not_precedes (by simpa using hbefore) (by simpa using hnot))
      refine List.pairwise_cons.2 ⟨fun m hm => ?_, ih hms⟩
      rcases mem_insert hm with rfl | hm
      · exact hafter
      · exact hk m hm

/-- **The members of a record are in the order of their keys.** -/
theorem pairwise_record (rows : List (Text × Json)) : ∃ ms, record rows = .object ms ∧
    ms.Pairwise fun x y => x.1.precedes y.1 := by
  refine ⟨_, rfl, ?_⟩
  induction rows using List.reverseRecOn with
  | nil => exact .nil
  | append_singleton rows m ih =>
    rw [List.foldl_append, List.foldl_cons, List.foldl_nil]
    exact pairwise_insert m.1 m.2 ih

end Json

namespace Report

open Expression Store

/-! ## The order of numbers -/

/-- The number that the digits of a placeholder say, and the largest one if they say none. -/
def placeholderNumber (t : Text) : Nat :=
  (Text.numeral? (t.dropWhile (!·.isDigit))).getD Text.maxIndex

/-- Rows in the order of their numbers.  Rows of one number stay in their order. -/
def byNumber (rows : List (Text × Json)) : List (Text × Json) :=
  rows.mergeSort fun x y => placeholderNumber x.1 ≤ placeholderNumber y.1

/-- The number of a placeholder is read back. -/
theorem placeholderNumber_ofNat {s : Text} (hs : ∀ c ∈ s, c.isDigit = false) {i : Nat}
    (hi : i ≤ Text.maxIndex) : placeholderNumber (s ++ Text.ofNat i) = i := by
  have hdrop : (s ++ Text.ofNat i).dropWhile (!·.isDigit) = Text.ofNat i := by
    obtain ⟨d, ds, hd⟩ := List.exists_cons_of_ne_nil (Text.ofNat_ne_nil i)
    have hdigit : d.isDigit := Text.isDigit_of_mem_ofNat (n := i) (by simp [hd])
    rw [List.dropWhile_append_of_pos (by simpa using hs), hd,
      List.dropWhile_cons_of_neg (by simp [hdigit])]
  have hnumeral : Text.numeral? (Text.ofNat i) = some i :=
    Text.numeral?_eq_some_iff.2 ⟨Text.ofNat_ne_nil i, fun _ => Text.isDigit_of_mem_ofNat, hi,
      Text.value_ofNat i⟩
  rw [placeholderNumber, hdrop, hnumeral, Option.getD_some]

theorem placeholderNumber_nameRef {i : Nat} (hi : i ≤ Text.maxIndex) :
    placeholderNumber (nameRef i) = i :=
  placeholderNumber_ofNat (s := "#n".toList) (by simp) hi

theorem placeholderNumber_valueRef {i : Nat} (hi : i ≤ Text.maxIndex) :
    placeholderNumber (valueRef i) = i :=
  placeholderNumber_ofNat (s := ":v".toList) (by simp) hi

example : placeholderNumber ":v12".toList = 12 ∧ placeholderNumber "x".toList = Text.maxIndex := by
  decide +kernel

theorem pairwise_byNumber (rows : List (Text × Json)) :
    (byNumber rows).Pairwise fun x y => placeholderNumber x.1 ≤ placeholderNumber y.1 := by
  have h : (byNumber rows).Pairwise fun x y =>
      decide (placeholderNumber x.1 ≤ placeholderNumber y.1) :=
    List.pairwise_mergeSort
      (fun _ _ _ hxy hyz =>
        decide_eq_true ((of_decide_eq_true hxy).trans (of_decide_eq_true hyz)))
      (fun _ _ => by simpa using Nat.le_total _ _) rows
  exact h.imp of_decide_eq_true

/-- **In the order of their numbers the rows of a numbered table stand as they were
    numbered**, in whatever order the table holds them. -/
theorem byNumber_eq {α : Type} {f : Nat → Text}
    (hf : ∀ {i}, i ≤ Text.maxIndex → placeholderNumber (f i) = i) {g : α → Json} {xs : List α}
    (hlength : xs.length ≤ Text.maxIndex) {ms : List (Text × Json)}
    (h : ms.Perm (xs.mapIdx fun i x => (f i, g x))) :
    byNumber ms = xs.mapIdx fun i x => (f i, g x) := by
  have hperm : (byNumber ms).Perm (xs.mapIdx fun i x => (f i, g x)) :=
    (List.mergeSort_perm ms _).trans h
  have hnumber {i : Nat} (hi : i < xs.length) : placeholderNumber (f i) = i :=
    hf (hi.le.trans hlength)
  have hsorted : (xs.mapIdx fun i x => (f i, g x)).Pairwise
      fun x y => placeholderNumber x.1 ≤ placeholderNumber y.1 := by
    refine List.pairwise_iff_getElem.2 fun i j hi hj hij => ?_
    simp only [List.length_mapIdx] at hi hj
    simp only [List.getElem_mapIdx, hnumber hi, hnumber hj]
    exact hij.le
  refine List.Perm.eq_of_pairwise (fun x y hx hy hxy hyx => ?_) (pairwise_byNumber ms) hsorted hperm
  -- two rows of one number are the same row
  obtain ⟨i, hi, rfl⟩ := List.mem_mapIdx.1 (hperm.mem_iff.1 hx)
  obtain ⟨j, hj, rfl⟩ := List.mem_mapIdx.1 hy
  rw [hnumber hi, hnumber hj] at hxy hyx
  obtain rfl := Nat.le_antisymm hxy hyx
  rfl

/-! ## The report of a request -/

/-- The rows of a table of a request, in the order of their numbers. -/
def tableRows (key : Text) (request : Json) : List (Text × Json) :=
  match request.field? key with
  | some (.object ms) => byNumber ms
  | _ => []

/-- A request and what its placeholders stand for.  All of it is read off the request. -/
def requestTable (palette : Palette) (request : Json) : Text :=
  let heading (t : String) : Text := palette.paint .boldGreen t.toList
  let string (v : Option Json) : Text := (v.bind Json.string?).getD []
  Text.line (heading "FilterExpression:" ++
      ' ' :: string (request.field? "FilterExpression".toList)) ++
    Text.line (heading "ExpressionAttributeNames:") ++
    (tableRows "ExpressionAttributeNames".toList request).flatMap
      (fun (p, v) => placeholderRow p (string (some v))) ++
    Text.line (heading "ExpressionAttributeValues:") ++
    (tableRows "ExpressionAttributeValues".toList request).flatMap
      (fun (p, v) => placeholderRow p v.compact)

/-- The table of a request under `key` has the given rows, each once, in the order of the
    placeholders' texts. -/
def HasTable (request : Json) (key : Text) (rows : List (Text × Json)) : Prop :=
  ∃ ms, request.field? key = some (.object ms) ∧ ms.Perm rows ∧
    ms.Pairwise fun x y => x.1.precedes y.1

theorem hasTable_of_numbered {α : Type} {f : Nat → Text} (hf : Function.Injective f) {g : α → Json}
    {xs : List α} {request : Json} {key : Text}
    (h : request.field? key =
      some (.record ((xs.mapIdx fun i x => (f i, x)).map fun row => (row.1, g row.2)))) :
    HasTable request key (xs.mapIdx fun i x => (f i, g x)) := by
  obtain ⟨ms, hms, -, hperm⟩ := exists_table hf g xs
  obtain ⟨ms', hms', hsorted⟩ :=
    Json.pairwise_record ((xs.mapIdx fun i x => (f i, x)).map fun row => (row.1, g row.2))
  obtain rfl : ms = ms' := Json.object.inj (hms.symm.trans hms')
  exact ⟨ms, by rw [h, hms], hperm, hsorted⟩

theorem hasTable_names (e : Expression) : HasTable e.json "ExpressionAttributeNames".toList
    (e.names.mapIdx fun i a => (nameRef i, .string a)) :=
  hasTable_of_numbered nameRef_injective rfl

theorem hasTable_values (e : Expression) : HasTable e.json "ExpressionAttributeValues".toList
    (e.values.mapIdx fun i v => (valueRef i, v.json)) :=
  hasTable_of_numbered valueRef_injective rfl

/-- The rows of a numbered table come back in the order of its items. -/
theorem HasTable.tableRows_eq {α : Type} {f : Nat → Text} {g : α → Json} {xs : List α}
    {request : Json} {key : Text} (h : HasTable request key (xs.mapIdx fun i x => (f i, g x)))
    (hf : ∀ {i}, i ≤ Text.maxIndex → placeholderNumber (f i) = i)
    (hlength : xs.length ≤ Text.maxIndex) :
    tableRows key request = xs.mapIdx fun i x => (f i, g x) := by
  obtain ⟨ms, hms, hperm, -⟩ := h
  simp only [tableRows, hms]
  exact byNumber_eq hf hlength hperm

theorem flatMap_mapIdx {α β : Type} (f : Nat → α → β) (g : β → Text) (xs : List α) :
    (xs.mapIdx f).flatMap g = (List.ofFn fun i : Fin xs.length => g (f i xs[i])).flatten := by
  rw [List.flatMap_def, List.mapIdx_eq_ofFn, List.map_ofFn]
  rfl

/-- **The report of a request is that of the expression**: the rows come back in the order of
    the attributes and values. -/
theorem requestTable_json (palette : Palette) {e : Expression}
    (hnames : e.names.length ≤ Text.maxIndex) (hvalues : e.values.length ≤ Text.maxIndex) :
    requestTable palette e.json = expressionTable palette e := by
  have htext : e.json.field? "FilterExpression".toList = some (.string e.text) := rfl
  have hnameRows := (hasTable_names e).tableRows_eq placeholderNumber_nameRef hnames
  have hvalueRows := (hasTable_values e).tableRows_eq placeholderNumber_valueRef hvalues
  simp only [requestTable, expressionTable, htext, hnameRows, hvalueRows, nameRows, valueRows,
    flatMap_mapIdx, Option.bind_some, Json.string?, Option.getD_some]

end Report

end RecordFilter
