/-
  Proofs.Store — how the record store reads a request.

  The store reads a filter expression by a grammar of its own, in which AND binds
  tighter than OR, and looks the placeholders up in the tables of the request.

  * `Store.Parses`: the grammar, and `Store.Reads`: the predicates that a request
    is read as;
  * `Store.Sole`: a text that is read in one way only, whatever stands behind it;
  * `Store.sole_of_chain`: texts joined by a keyword are read in one way only, if
    each of them is;
  * `Store.Parses.composed`: what is read with the placeholders of an expression is
    put together from such texts;
  * `Store.reads_ofPredicate_iff`: the request of a predicate is read as the
    predicate, and as nothing else.
-/
import RecordFilter.Expression
import RecordFilter.Proofs.Build
import RecordFilter.Proofs.Operands

namespace RecordFilter

/-! ## Tables -/

namespace Json

theorem lookup_cons_eq_ite (key k : Text) (value : Json) (ms : List (Text × Json)) :
    ((key, value) :: ms).lookup k = if k = key then some value else ms.lookup k := by
  by_cases h : k = key
  · simp [h]
  · rw [List.lookup_cons, beq_false_of_ne h, if_neg h]

theorem lookup_insert (key k : Text) (value : Json) (ms : List (Text × Json)) :
    (insert key value ms).lookup k = if k = key then some value else ms.lookup k := by
  induction ms with
  | nil => rw [insert, lookup_cons_eq_ite]
  | cons m ms ih =>
    obtain ⟨k', v⟩ := m
    rw [insert]
    split_ifs with h₁ h₂ h₃ <;> simp only [lookup_cons_eq_ite, ih] <;> grind

theorem field?_record_concat (k : Text) (ms : List (Text × Json)) (m : Text × Json) :
    field? k (record (ms ++ [m])) = if k = m.1 then some m.2 else field? k (record ms) := by
  simp only [record, field?, List.foldl_append, List.foldl_cons, List.foldl_nil, lookup_insert]

/-- The members of a record whose keys are numbered. -/
theorem field?_record_mapIdx {α : Type} {f : Nat → Text} (hf : Function.Injective f) (g : α → Json)
    (xs : List α) {k : Text} {v : Json} :
    field? k (record ((xs.mapIdx fun i x => (f i, x)).map fun m => (m.1, g m.2))) = some v ↔
      ∃ i x, xs[i]? = some x ∧ k = f i ∧ g x = v := by
  induction xs using List.reverseRecOn with
  | nil => simp [record, field?]
  | append_singleton xs y ih =>
    rw [List.mapIdx_concat, List.map_append, List.map_singleton, field?_record_concat]
    split_ifs with h
    · rw [Option.some.injEq]
      refine ⟨fun hv => ⟨xs.length, y, by simp, h, hv⟩, ?_⟩
      rintro ⟨i, x, hx, hk, rfl⟩
      obtain rfl : i = xs.length := hf (hk.symm.trans h)
      simp at hx
      rw [hx]
    · rw [ih]
      refine exists_congr fun i => exists_congr fun x => and_congr_left fun ⟨hk, _⟩ => ?_
      have hi : i ≠ xs.length := fun hi => h (hi ▸ hk)
      rw [List.getElem?_append]
      split_ifs with hlt
      · rfl
      · rw [List.getElem?_eq_none (by omega), List.getElem?_eq_none (by simp; omega)]

end Json

/-! ## Values and operands -/

@[simp] theorem AttributeValue.json_inj {x y : AttributeValue} : x.json = y.json ↔ x = y := by
  cases x <;> cases y <;> simp [json]

theorem Predicate.values_join (l r : Predicate) (c : Combinator) :
    (join l c r).values = l.values ++ r.values := by
  simp [values, comparisons]

/-- A flag check has a value, too. -/
theorem Comparison.length_values {c : Comparison} (h : c.operands.length = c.operator.arity) :
    c.values.length = max 1 c.operator.arity := by
  obtain ⟨a, op, xs⟩ := c
  cases op <;> simp_all [values, Operator.arity]

/-- Every comparison has as many operands as its operator takes. -/
def Predicate.Saturated (p : Predicate) : Prop :=
  ∀ c ∈ p.comparisons, c.operands.length = c.operator.arity

instance (p : Predicate) : Decidable p.Saturated :=
  inferInstanceAs (Decidable (∀ c ∈ p.comparisons, c.operands.length = c.operator.arity))

namespace Store

/-! ## The grammar -/

/-- The attribute that a placeholder stands for. -/
def NameIs (request : Json) (ref name : Text) : Prop :=
  (request.field? "ExpressionAttributeNames".toList).bind (Json.field? ref) = some (.string name)

/-- The value that a placeholder stands for. -/
def ValueIs (request : Json) (ref : Text) (value : AttributeValue) : Prop :=
  (request.field? "ExpressionAttributeValues".toList).bind (Json.field? ref) = some value.json

/-- The symbols between a name and a text. -/
def symbols : List (Text × Operator) := [
  ("=".toList, .equal), ("<>".toList, .notEqual), ("<".toList, .before),
  ("<=".toList, .atMost), (">".toList, .after), (">=".toList, .atLeast)]

/-- The functions of a name and a text. -/
def functions : List (Text × Operator) := [
  ("begins_with".toList, .begins), ("contains".toList, .contains)]

/-- The operator and the operands of a symbol with a value behind it. -/
inductive Compares : Text → AttributeValue → Operator × List Text → Prop
  | text {s x : Text} {op : Operator} (h : (s, op) ∈ symbols) : Compares s (.text x) (op, [x])
  | flag (b : Bool) : Compares "=".toList (.flag b) (if b then .isTrue else .isFalse, [])

/-- The operator and the operands of what stands behind a name. -/
inductive Test (request : Json) : Text → Operator × List Text → Prop
  | compare {s v : Text} {x : AttributeValue} {y : Operator × List Text} (hs : Compares s x y)
      (hv : ValueIs request v x) : Test request (s ++ ' ' :: v) y
  | between {v w x y : Text} (hv : ValueIs request v (.text x)) (hw : ValueIs request w (.text y)) :
      Test request ("BETWEEN".toList ++ ' ' :: v ++ " AND ".toList ++ w) (.between, [x, y])

/-- A condition without keywords around it. -/
inductive Condition (request : Json) : Text → Comparison → Prop
  | test {n t a : Text} {op : Operator} {xs : List Text} (hn : NameIs request n a)
      (ht : Test request t (op, xs)) : Condition request (n ++ ' ' :: t) ⟨a, op, xs⟩
  | call {f n v a x : Text} {op : Operator} (hop : (f, op) ∈ functions) (hn : NameIs request n a)
      (hv : ValueIs request v (.text x)) :
      Condition request (f ++ '(' :: n ++ ", ".toList ++ v ++ [')']) ⟨a, op, [x]⟩

/-- The parts of the grammar, the tightest first. -/
inductive Part where
  | atom
  | conjunction
  | disjunction
  deriving DecidableEq, Repr

/-- The predicates that a text is read as.  AND binds tighter than OR. -/
inductive Parses (request : Json) : Part → Text → Predicate → Prop
  | condition {t : Text} {c : Comparison} (h : Condition request t c) :
      Parses request .atom t (.leaf c)
  | group {t : Text} {p : Predicate} (h : Parses request .disjunction t p) :
      Parses request .atom ('(' :: t ++ [')']) p
  | atom {t : Text} {p : Predicate} (h : Parses request .atom t p) :
      Parses request .conjunction t p
  | and {t u : Text} {l r : Predicate} (hl : Parses request .conjunction t l)
      (hr : Parses request .atom u r) :
      Parses request .conjunction (t ++ " AND ".toList ++ u) (.join l .and r)
  | conjunction {t : Text} {p : Predicate} (h : Parses request .conjunction t p) :
      Parses request .disjunction t p
  | or {t u : Text} {l r : Predicate} (hl : Parses request .disjunction t l)
      (hr : Parses request .conjunction u r) :
      Parses request .disjunction (t ++ " OR ".toList ++ u) (.join l .or r)

/-- The predicates that a request is read as. -/
def Reads (request : Json) (p : Predicate) : Prop :=
  ∃ t, request.field? "FilterExpression".toList = some (.string t) ∧
    Parses request .disjunction t p

/-! ## One way of reading -/

/-- The text is empty, or its first character does not have the property. -/
def Stops (P : Char → Bool) (s : Text) : Prop := ∀ c ∈ s.head?, P c = false

@[simp] theorem stops_nil (P : Char → Bool) : Stops P [] := by simp [Stops]

@[simp] theorem stops_cons {P : Char → Bool} {c : Char} {s : Text} :
    Stops P (c :: s) ↔ P c = false := by simp [Stops]

theorem takeWhile_of_stops {P : Char → Bool} {u s : Text} (hu : ∀ c ∈ u, P c) (hs : Stops P s) :
    (u ++ s).takeWhile P = u := by
  rw [List.takeWhile_append_of_pos hu]
  cases s with
  | nil => simp
  | cons c s => simp [stops_cons.1 hs]

theorem append_inj_of_stops {P : Char → Bool} {u u' s s' : Text} (hu : ∀ c ∈ u, P c)
    (hu' : ∀ c ∈ u', P c) (hs : Stops P s) (hs' : Stops P s') (h : u ++ s = u' ++ s') :
    u = u' ∧ s = s' := by
  obtain rfl : u = u' := by
    rw [← takeWhile_of_stops hu hs, h, takeWhile_of_stops hu' hs']
  exact ⟨rfl, List.append_cancel_left h⟩

theorem word_append_inj {c : Char} {u u' s s' : Text} (hu : c ∉ u) (hu' : c ∉ u')
    (h : u ++ c :: s = u' ++ c :: s') : u = u' ∧ s = s' := by
  have hne : ∀ {u : Text}, c ∉ u → ∀ x ∈ u, decide (x ≠ c) = true := fun hu x hx =>
    decide_eq_true fun hxc => hu (hxc ▸ hx)
  obtain ⟨hw, hs⟩ := append_inj_of_stops (hne hu) (hne hu') (by simp) (by simp) h
  exact ⟨hw, List.tail_eq_of_cons_eq hs⟩

/-- The text is read in one way only, as `x`, also as the beginning of another text:
    `Item` says how texts are read, and `Follow` what stands behind them. -/
def Sole {α : Type} (Item : Text → α → Prop) (Follow : Text → Prop) (t : Text) (x : α) : Prop :=
  ∀ ⦃t' y s s'⦄, Item t' y → Follow s → Follow s' → t ++ s = t' ++ s' → t = t' ∧ x = y

/-! ## Chains -/

/-- A keyword as it stands in an expression. -/
def separator (c : Combinator) : Text := ' ' :: c.keyword ++ [' ']

/-- The items behind the first, with the keyword before each. -/
def tail {α : Type} (c : Combinator) (xs : List (Text × α)) : Text :=
  xs.flatMap fun x => separator c ++ x.1

/-- Items joined by one keyword, from left to right. -/
def Chain (Item : Text → Predicate → Prop) (c : Combinator) (t : Text) (p : Predicate) : Prop :=
  ∃ u q xs, Item u q ∧ (∀ x ∈ xs, Item x.1 x.2) ∧ t = u ++ tail c xs ∧
    p = q.joins (xs.map fun x => (c, x.2))

section Chain

variable {Item : Text → Predicate → Prop} {Follow : Text → Prop} {c : Combinator}

theorem Chain.single {t : Text} {p : Predicate} (h : Item t p) : Chain Item c t p :=
  ⟨t, p, [], h, by simp, by simp [tail], rfl⟩

theorem Chain.concat {t u : Text} {l r : Predicate} (hl : Chain Item c t l) (hr : Item u r) :
    Chain Item c (t ++ separator c ++ u) (.join l c r) := by
  obtain ⟨v, q, xs, hq, hxs, rfl, rfl⟩ := hl
  refine ⟨v, q, xs ++ [(u, r)], hq, ?_, by simp [tail], by simp [Predicate.joins]⟩
  simpa [or_imp, forall_and] using ⟨fun _ _ hx => hxs _ hx, hr⟩

/-- What stands behind a chain: nothing that goes on with the last item, and not the
    keyword. -/
def Ends (Follow : Text → Prop) (c : Combinator) (s : Text) : Prop :=
  Follow s ∧ ¬ separator c <+: s

theorem follow_tail {α : Type} (hc : ∀ s, Follow (separator c ++ s)) (xs : List (Text × α))
    {s : Text} (hs : Follow s) : Follow (tail c xs ++ s) := by
  cases xs with
  | nil => exact hs
  | cons x xs => simpa [tail] using hc _

theorem tail_inj (hc : ∀ s, Follow (separator c ++ s)) {xs ys : List (Text × Predicate)}
    (hxs : ∀ x ∈ xs, Sole Item Follow x.1 x.2) (hys : ∀ y ∈ ys, Item y.1 y.2) {s s' : Text}
    (hs : Ends Follow c s) (hs' : Ends Follow c s') (h : tail c xs ++ s = tail c ys ++ s') :
    xs = ys := by
  induction xs generalizing ys with
  | nil =>
    cases ys with
    | nil => rfl
    | cons y ys => exact absurd ⟨_, (by simpa [tail] using h.symm)⟩ hs.2
  | cons x xs ih =>
    cases ys with
    | nil => exact absurd ⟨_, (by simpa [tail] using h)⟩ hs'.2
    | cons y ys =>
      simp only [List.forall_mem_cons] at hxs hys
      have hitem : x.1 ++ (tail c xs ++ s) = y.1 ++ (tail c ys ++ s') := by
        simpa [tail] using h
      obtain ⟨ht, hp⟩ := hxs.1 hys.1 (follow_tail hc xs hs.1) (follow_tail hc ys hs'.1) hitem
      rw [ht] at hitem
      rw [Prod.ext ht hp, ih hxs.2 hys.2 (List.append_cancel_left hitem)]

/-- **A chain is read in one way only, if its items are.** -/
theorem sole_of_chain (hc : ∀ s, Follow (separator c ++ s)) {t : Text} {p : Predicate}
    (h : Chain (Sole Item Follow) c t p) : Sole (Chain Item c) (Ends Follow c) t p := by
  obtain ⟨u, q, xs, hq, hxs, rfl, rfl⟩ := h
  rintro _ _ s s' ⟨u', q', ys, hq', hys, rfl, rfl⟩ hs hs' h
  rw [List.append_assoc, List.append_assoc] at h
  obtain ⟨rfl, rfl⟩ := hq hq' (follow_tail hc xs hs.1) (follow_tail hc ys hs'.1) h
  obtain rfl := tail_inj hc hxs hys hs hs' (List.append_cancel_left h)
  exact ⟨rfl, rfl⟩

end Chain

theorem Parses.chain_of_conjunction {request : Json} {t : Text} {p : Predicate}
    (h : Parses request .conjunction t p) : Chain (Parses request .atom) .and t p := by
  generalize hpart : Part.conjunction = part at h
  induction h with
  | atom h => exact .single h
  | and _ hr ih => exact (ih hpart).concat hr
  | _ => cases hpart

theorem Parses.chain_of_disjunction {request : Json} {t : Text} {p : Predicate}
    (h : Parses request .disjunction t p) : Chain (Parses request .conjunction) .or t p := by
  generalize hpart : Part.disjunction = part at h
  induction h with
  | conjunction h => exact .single h
  | or _ hr ih => exact (ih hpart).concat hr
  | _ => cases hpart

/-! ## Placeholders -/

open Expression

variable {e : Expression}

theorem ofNat_append_inj {i j : Nat} {s s' : Text} (hs : Stops Char.isDigit s)
    (hs' : Stops Char.isDigit s') (h : Text.ofNat i ++ s = Text.ofNat j ++ s') :
    i = j ∧ s = s' := by
  obtain ⟨hij, hs⟩ := append_inj_of_stops (fun _ => Text.isDigit_of_mem_ofNat)
    (fun _ => Text.isDigit_of_mem_ofNat) hs hs' h
  exact ⟨by rw [← Text.value_ofNat i, hij, Text.value_ofNat], hs⟩

/-- Placeholders are a prefix with numbers behind it. -/
theorem numbered_injective {f : Nat → Text} (t : Text) (hf : ∀ i, f i = t ++ Text.ofNat i) :
    Function.Injective f := by
  intro i j h
  rw [hf, hf] at h
  rw [← Text.value_ofNat i, List.append_cancel_left h, Text.value_ofNat]

theorem nameRef_injective : Function.Injective nameRef :=
  numbered_injective "#n".toList fun _ => rfl

theorem valueRef_injective : Function.Injective valueRef :=
  numbered_injective ":v".toList fun _ => rfl

theorem nameIs_json_iff {n a : Text} :
    NameIs e.json n a ↔ ∃ i, e.names[i]? = some a ∧ n = nameRef i := by
  have hfield : e.json.field? "ExpressionAttributeNames".toList =
      some (.record (e.nameRows.map fun row => (row.1, .string row.2))) := rfl
  rw [NameIs, hfield, Option.bind_some, nameRows, Json.field?_record_mapIdx nameRef_injective]
  simp

theorem valueIs_json_iff {v : Text} {x : AttributeValue} :
    ValueIs e.json v x ↔ ∃ i, e.values[i]? = some x ∧ v = valueRef i := by
  have hfield : e.json.field? "ExpressionAttributeValues".toList =
      some (.record (e.valueRows.map fun row => (row.1, row.2.json))) := rfl
  rw [ValueIs, hfield, Option.bind_some, valueRows, Json.field?_record_mapIdx valueRef_injective]
  simp

/-- Placeholders of a list are read in one way only. -/
theorem sole_of_numbered {α : Type} {xs : List α} {f : Nat → Text} (u : Text)
    (hf : ∀ i, f i = u ++ Text.ofNat i) {Item : Text → α → Prop}
    (hitem : ∀ {t x}, Item t x ↔ ∃ i, xs[i]? = some x ∧ t = f i) {t : Text} {x : α} (h : Item t x) :
    Sole Item (Stops Char.isDigit) t x := by
  intro t' x' s s' h' hs hs' heq
  obtain ⟨i, hi, rfl⟩ := hitem.1 h
  obtain ⟨j, hj, rfl⟩ := hitem.1 h'
  rw [hf, hf, List.append_assoc, List.append_assoc] at heq
  obtain ⟨rfl, -⟩ := ofNat_append_inj hs hs' (List.append_cancel_left heq)
  exact ⟨rfl, Option.some.inj (hi.symm.trans hj)⟩

theorem sole_of_nameIs {n a : Text} (h : NameIs e.json n a) :
    Sole (NameIs e.json) (Stops Char.isDigit) n a :=
  sole_of_numbered "#n".toList (fun _ => rfl) nameIs_json_iff h

theorem sole_of_valueIs {v : Text} {x : AttributeValue} (h : ValueIs e.json v x) :
    Sole (ValueIs e.json) (Stops Char.isDigit) v x :=
  sole_of_numbered ":v".toList (fun _ => rfl) valueIs_json_iff h

/-! ## Conditions -/

theorem Compares.mem_symbols {s : Text} {x : AttributeValue} {y : Operator × List Text}
    (h : Compares s x y) : s ∈ symbols.map Prod.fst := by
  cases h with
  | text h => exact List.mem_map_of_mem h
  | flag => decide

theorem Compares.unique {s : Text} {x : AttributeValue} {y y' : Operator × List Text}
    (h : Compares s x y) (h' : Compares s x y') : y = y' := by
  have hsymbols : ∀ a ∈ symbols, ∀ b ∈ symbols, a.1 = b.1 → a.2 = b.2 := by decide
  cases h with
  | text h =>
    cases h' with
    | text h' =>
      obtain rfl := hsymbols _ h _ h' rfl
      rfl
  | flag b =>
    generalize "=".toList = s at h'
    cases h'
    rfl

theorem space_notMem_of_mem_symbols {s : Text} (h : s ∈ symbols.map Prod.fst) : ' ' ∉ s := by
  have key : ∀ s ∈ symbols.map Prod.fst, ' ' ∉ s := by decide
  exact key s h

/-- A symbol is not the word of a test with two values. -/
theorem compare_ne_between {s t t' : Text} (h : s ∈ symbols.map Prod.fst) :
    s ++ ' ' :: t ≠ "BETWEEN".toList ++ ' ' :: t' := by
  intro heq
  obtain ⟨rfl, -⟩ := word_append_inj (space_notMem_of_mem_symbols h) (by decide) heq
  exact absurd h (by decide)

theorem sole_of_test {t : Text} {y : Operator × List Text} (h : Test e.json t y) :
    Sole (Test e.json) (Stops Char.isDigit) t y := by
  intro t' y' s s' h' hs hs' heq
  cases h with
  | compare hop hv =>
    cases h' with
    | compare hop' hv' =>
      rw [List.append_assoc, List.append_assoc] at heq
      obtain ⟨rfl, hrest⟩ := word_append_inj (space_notMem_of_mem_symbols hop.mem_symbols)
        (space_notMem_of_mem_symbols hop'.mem_symbols) heq
      obtain ⟨rfl, rfl⟩ := sole_of_valueIs hv hv' hs hs' hrest
      exact ⟨rfl, hop.unique hop'⟩
    | between =>
      exact absurd (by simpa using heq) (compare_ne_between hop.mem_symbols)
  | between hv hw =>
    cases h' with
    | compare hop' =>
      exact absurd (by simpa using heq.symm) (compare_ne_between hop'.mem_symbols)
    | between hv' hw' =>
      simp only [List.append_assoc, List.cons_append, List.append_cancel_left_eq,
        List.cons.injEq, true_and] at heq
      obtain ⟨rfl, hx⟩ := sole_of_valueIs hv hv' (by simp) (by simp) heq
      simp only [List.append_cancel_left_eq] at heq
      obtain ⟨rfl, hy⟩ := sole_of_valueIs hw hw' hs hs' heq
      cases hx
      cases hy
      exact ⟨rfl, rfl⟩

theorem exists_cons_of_function {f : Text} {op : Operator} (h : (f, op) ∈ functions) :
    ∃ c u, f = c :: u ∧ c ≠ '#' ∧ c ≠ '(' := by
  simp only [functions, List.mem_cons, Prod.mk.injEq, List.not_mem_nil, or_false] at h
  rcases h with ⟨rfl, -⟩ | ⟨rfl, -⟩ <;> exact ⟨_, _, rfl, by decide, by decide⟩

/-- The first character tells whether a condition is a call. -/
theorem name_ne_call {n a f : Text} {op : Operator} (hn : NameIs e.json n a)
    (hf : (f, op) ∈ functions) (s s' : Text) : n ++ s ≠ f ++ s' := by
  obtain ⟨i, -, rfl⟩ := nameIs_json_iff.1 hn
  obtain ⟨c, u, rfl, hne, -⟩ := exists_cons_of_function hf
  exact fun h => hne (List.cons.inj h).1.symm

theorem call_append_inj {f f' : Text} {op op' : Operator} (hf : (f, op) ∈ functions)
    (hf' : (f', op') ∈ functions) {s s' : Text} (h : f ++ '(' :: s = f' ++ '(' :: s') :
    f = f' ∧ op = op' ∧ s = s' := by
  have hparen : ∀ x ∈ functions, '(' ∉ x.1 := by decide
  have hunique : ∀ x ∈ functions, ∀ y ∈ functions, x.1 = y.1 → x.2 = y.2 := by decide
  obtain ⟨rfl, hs⟩ := word_append_inj (hparen _ hf) (hparen _ hf') h
  exact ⟨rfl, hunique _ hf _ hf' rfl, hs⟩

theorem sole_of_condition {t : Text} {c : Comparison} (h : Condition e.json t c) :
    Sole (Condition e.json) (Stops Char.isDigit) t c := by
  intro t' c' s s' h' hs hs' heq
  cases h with
  | test hn ht =>
    cases h' with
    | test hn' ht' =>
      rw [List.append_assoc, List.append_assoc] at heq
      obtain ⟨rfl, rfl⟩ := sole_of_nameIs hn hn' (by simp) (by simp) heq
      have hrest := List.tail_eq_of_cons_eq (List.append_cancel_left heq)
      obtain ⟨rfl, hx⟩ := sole_of_test ht ht' hs hs' hrest
      cases hx
      exact ⟨rfl, rfl⟩
    | call hop' =>
      simp only [List.append_assoc, List.cons_append] at heq
      exact absurd heq (name_ne_call hn hop' _ _)
  | @call _ _ v _ _ _ hop hn hv =>
    cases h' with
    | test hn' =>
      simp only [List.append_assoc, List.cons_append] at heq
      exact absurd heq.symm (name_ne_call hn' hop _ _)
    | @call _ _ v' _ _ _ hop' hn' hv' =>
      simp only [List.append_assoc, List.cons_append] at heq
      obtain ⟨rfl, rfl, hrest⟩ := call_append_inj hop hop' heq
      obtain ⟨rfl, rfl⟩ := sole_of_nameIs hn hn' (by simp) (by simp) hrest
      have hvalue : v ++ ')' :: s = v' ++ ')' :: s' := by simpa using hrest
      obtain ⟨rfl, hx⟩ := sole_of_valueIs hv hv' (by simp) (by simp) hvalue
      cases hx
      exact ⟨rfl, rfl⟩

theorem Condition.ne_group {t : Text} {c : Comparison} (h : Condition e.json t c) (s s' : Text) :
    t ++ s ≠ '(' :: s' := by
  cases h with
  | test hn =>
    obtain ⟨i, -, rfl⟩ := nameIs_json_iff.1 hn
    simp [nameRef]
  | call hop =>
    obtain ⟨c, u, rfl, -, hne⟩ := exists_cons_of_function hop
    simp [hne]

/-! ## Expressions -/

/-- What stands behind an atom, behind a conjunction and behind a disjunction. -/
def Follows : Part → Text → Prop
  | .atom => Stops Char.isDigit
  | .conjunction => Ends (Stops Char.isDigit) .and
  | .disjunction => Ends (Ends (Stops Char.isDigit) .and) .or

theorem follows_atom_separator (c : Combinator) (s : Text) :
    Follows .atom (separator c ++ s) := by
  simp [Follows, separator]

theorem follows_conjunction_separator (s : Text) :
    Follows .conjunction (separator .or ++ s) := by
  simp [Follows, Ends, separator, Combinator.keyword]

theorem follows_disjunction_close (s : Text) : Follows .disjunction (')' :: s) := by
  simp [Follows, Ends, separator]

/-- A text put together from texts that are read in one way only. -/
def Composed (request : Json) : Part → Text → Predicate → Prop
  | .atom => Sole (Parses request .atom) (Follows .atom)
  | .conjunction => Chain (Sole (Parses request .atom) (Follows .atom)) .and
  | .disjunction => Chain (Sole (Parses request .conjunction) (Follows .conjunction)) .or

theorem Composed.sole {request : Json} {part : Part} {t : Text} {p : Predicate}
    (h : Composed request part t p) : Sole (Parses request part) (Follows part) t p := by
  cases part with
  | atom => exact h
  | conjunction =>
    exact fun _ _ _ _ h' => sole_of_chain (follows_atom_separator _) h h'.chain_of_conjunction
  | disjunction =>
    exact fun _ _ _ _ h' => sole_of_chain follows_conjunction_separator h h'.chain_of_disjunction

theorem Parses.composed {part : Part} {t : Text} {p : Predicate} (h : Parses e.json part t p) :
    Composed e.json part t p := by
  -- A chain is derived from its last item back, but compared with another one from
  -- its first item on, so the induction keeps all items.
  induction h with
  | condition h =>
    intro t' q s s' h' hs hs' heq
    cases h' with
    | condition h' =>
      obtain ⟨rfl, rfl⟩ := sole_of_condition h h' hs hs' heq
      exact ⟨rfl, rfl⟩
    | group => exact absurd (by simpa using heq) (h.ne_group _ _)
  | @group t p _ ih =>
    intro _ q s s' h' _ _ heq
    cases h' with
    | condition h' => exact absurd (by simpa using heq.symm) (h'.ne_group _ _)
    | @group t' _ h' =>
      have hinside : t ++ ')' :: s = t' ++ ')' :: s' := by simpa using heq
      obtain ⟨rfl, rfl⟩ := ih.sole h' (follows_disjunction_close s) (follows_disjunction_close s')
        hinside
      exact ⟨rfl, rfl⟩
  | atom _ ih => exact .single ih
  | and _ _ ihl ihr => exact ihl.concat ihr
  | conjunction _ ih => exact .single ih.sole
  | or _ _ ihl ihr => exact ihl.concat ihr.sole

/-- **A request is read in one way at most**, if its placeholders are those of an
    expression. -/
theorem Reads.unique {p q : Predicate} (h : Reads e.json p) (h' : Reads e.json q) : p = q := by
  obtain ⟨t, ht, hp⟩ := h
  obtain ⟨u, hu, hq⟩ := h'
  obtain rfl : t = u := Json.string.inj (Option.some.inj (ht.symm.trans hu))
  have hend : Follows .disjunction [] := by simp [Follows, Ends, separator]
  exact (hp.composed.sole hq hend hend rfl).2

/-! ## The request of a predicate -/

theorem write_append (names : List Text) (k : Nat) (p : Predicate) (rest : Text) :
    write names k p rest = write names k p [] ++ rest := by
  induction p generalizing k rest with
  | leaf c => simp [write]
  | join l c r ihl ihr =>
    simp only [write]
    rw [ihl, ihr, ihl k (_ ++ write _ _ _ [')']), ihr _ [')']]
    simp

theorem write_join (names : List Text) (k : Nat) (l r : Predicate) (c : Combinator) :
    write names k (.join l c r) [] =
      '(' :: write names k l [] ++ [')'] ++ separator c ++
        ('(' :: write names (k + l.values.length) r [] ++ [')']) := by
  rw [write, write_append, write_append _ _ r]
  simp [separator]

theorem Condition.compare {request : Json} {n s v a : Text} {x : AttributeValue} {op : Operator}
    {xs : List Text} (hn : NameIs request n a) (hs : Compares s x (op, xs))
    (hv : ValueIs request v x) : Condition request (n ++ ' ' :: s ++ ' ' :: v) ⟨a, op, xs⟩ := by
  rw [List.append_assoc]
  exact .test hn (.compare hs hv)

theorem Condition.between {request : Json} {n v w a x y : Text} (hn : NameIs request n a)
    (hv : ValueIs request v (.text x)) (hw : ValueIs request w (.text y)) :
    Condition request (n ++ " BETWEEN ".toList ++ v ++ " AND ".toList ++ w)
      ⟨a, .between, [x, y]⟩ := by
  have htext : n ++ " BETWEEN ".toList ++ v ++ " AND ".toList ++ w =
      n ++ ' ' :: ("BETWEEN".toList ++ ' ' :: v ++ " AND ".toList ++ w) := by simp
  rw [htext]
  exact .test hn (.between hv hw)

theorem condition_of_comparison {c : Comparison} {n : Text} {k : Nat}
    (hn : NameIs e.json n c.name) (harity : c.operands.length = c.operator.arity)
    (hvalues : ∀ i x, c.values[i]? = some x → ValueIs e.json (valueRef (k + i)) x) :
    Condition e.json (condition c.operator n k) c := by
  obtain ⟨a, op, xs⟩ := c
  cases op
  case between =>
    have hlen : xs.length = 2 := harity
    obtain ⟨x, y, rfl⟩ := List.length_eq_two.1 hlen
    have hlow : ValueIs e.json (valueRef k) (.text x) := hvalues 0 _ rfl
    have hhigh : ValueIs e.json (valueRef (k + 1)) (.text y) := hvalues 1 _ rfl
    exact .between hn hlow hhigh
  case isTrue =>
    obtain rfl := List.length_eq_zero_iff.1 harity
    exact .compare hn (.flag true) (hvalues 0 (.flag true) rfl)
  case isFalse =>
    obtain rfl := List.length_eq_zero_iff.1 harity
    exact .compare hn (.flag false) (hvalues 0 (.flag false) rfl)
  all_goals
    obtain ⟨x, rfl⟩ := List.length_eq_one_iff.1 harity
    have htext : ValueIs e.json (valueRef k) (.text x) := hvalues 0 _ rfl
  case begins =>
    have hop : ("begins_with".toList, Operator.begins) ∈ functions := by decide
    exact .call hop hn htext
  case contains =>
    have hop : ("contains".toList, Operator.contains) ∈ functions := by decide
    exact .call hop hn htext
  all_goals exact .compare hn (.text (by simp [symbol, symbols])) htext

theorem parses_write {p : Predicate} {k : Nat} (hp : p.Saturated)
    (hnames : ∀ c ∈ p.comparisons, c.name ∈ e.names)
    (hvalues : ∀ i x, p.values[i]? = some x → e.values[k + i]? = some x) :
    Parses e.json .disjunction (write e.names k p []) p := by
  induction p generalizing k with
  | leaf c =>
    have hn : NameIs e.json (nameRef (e.names.idxOf c.name)) c.name :=
      nameIs_json_iff.2 ⟨_, List.getElem?_idxOf (hnames c (by simp [Predicate.comparisons])), rfl⟩
    have hv : ∀ i x, c.values[i]? = some x → ValueIs e.json (valueRef (k + i)) x := fun i x hx =>
      valueIs_json_iff.2 ⟨_, hvalues i x (by simpa [Predicate.values, Predicate.comparisons]), rfl⟩
    have := condition_of_comparison hn (hp c (by simp [Predicate.comparisons])) hv
    simpa [write] using Parses.conjunction (.atom (.condition this))
  | join l c r ihl ihr =>
    obtain ⟨hpl, hpr⟩ := List.forall_mem_append.1 hp
    obtain ⟨hnl, hnr⟩ := List.forall_mem_append.1 hnames
    rw [Predicate.values_join] at hvalues
    have hvl : ∀ i x, l.values[i]? = some x → e.values[k + i]? = some x := by
      intro i x hx
      refine hvalues i x ?_
      rwa [List.getElem?_append_left (List.getElem?_eq_some_iff.1 hx).1]
    have hvr : ∀ i x, r.values[i]? = some x → e.values[k + l.values.length + i]? = some x := by
      intro i x hx
      rw [Nat.add_assoc]
      refine hvalues _ x ?_
      rwa [List.getElem?_append_right (by omega), Nat.add_sub_cancel_left]
    have hl := (ihl hpl hnl hvl).group
    have hr := (ihr hpr hnr hvr).group
    rw [write_join]
    cases c with
    | and => exact .conjunction (.and (.atom hl) hr)
    | or => exact .or (.conjunction (.atom hl)) (.atom hr)

theorem reads_ofPredicate {p : Predicate} (hp : p.Saturated) : Reads (ofPredicate p).json p := by
  refine ⟨_, rfl, parses_write hp (fun c hc => ?_) (by simp [ofPredicate])⟩
  exact List.mem_eraseDups.2 (List.mem_map_of_mem hc)

/-- **The request of a predicate is read as the predicate**, and as nothing else. -/
theorem reads_ofPredicate_iff {p : Predicate} (hp : p.Saturated) :
    (∀ q, Reads (ofPredicate p).json q ↔ q = p) ∧
      ∀ q : Predicate, q.Saturated → (ofPredicate q).json = (ofPredicate p).json → q = p := by
  have hreads : ∀ q, Reads (ofPredicate p).json q ↔ q = p := fun q =>
    ⟨fun hq => hq.unique (reads_ofPredicate hp), fun h => h.symm ▸ reads_ofPredicate hp⟩
  exact ⟨hreads, fun q hq h => (hreads q).1 (h ▸ reads_ofPredicate hq)⟩

/-- A predicate whose values hold keywords, parentheses and placeholders. -/
def keywordValues : Predicate :=
  (Predicate.isTrue "a".toList).or
    ((Predicate.between "b".toList "AND".toList ") OR (".toList).and
      (Predicate.equal "a".toList ":v0".toList))

theorem reads_keywordValues_iff : keywordValues.Saturated ∧
    (ofPredicate keywordValues).text =
      "(#n0 = :v0) OR ((#n1 BETWEEN :v1 AND :v2) AND (#n0 = :v3))".toList ∧
    (∀ q, Reads (ofPredicate keywordValues).json q ↔ q = keywordValues) ∧
    ∀ q : Predicate, q.Saturated → (ofPredicate q).json = (ofPredicate keywordValues).json →
      q = keywordValues :=
  ⟨by decide, by decide, reads_ofPredicate_iff (by decide)⟩

end Store

end RecordFilter
