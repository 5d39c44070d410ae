/-
  Proofs.Placeholders — what the tables of an expression hold.

  * `mentions`: the placeholders in a text, found by their signs;
  * `mentions_write`: those of an expression, comparison by comparison;
  * `Json.exists_record_perm`: a table is an object with one member for each row;
  * `Alike.text_eq`: no attribute and no value has a part in the expression;
  * `Tabulated`: the expression and its tables belong together, and
    `tabulated_ofPredicate`: those of a predicate do.
-/
import RecordFilter.Proofs.Rendering

namespace RecordFilter

/-! ## Tables -/

namespace Json

theorem insert_perm {key : Text} {value : Json} {ms : List (Text × Json)}
    (h : key ∉ ms.map Prod.fst) : (insert key value ms).Perm ((key, value) :: ms) := by
  induction ms with
  | nil => exact .refl _
  | cons m ms ih =>
    obtain ⟨k, v⟩ := m
    simp only [List.map_cons, List.mem_cons, not_or] at h
    rw [insert, if_neg h.1]
    split_ifs
    · exact .refl _
    · exact ((ih h.2).cons _).trans (.swap _ _ _)

/-- A record has one member for each row, if no two rows have one key. -/
theorem exists_record_perm {rows : List (Text × Json)} (h : (rows.map Prod.fst).Nodup) :
    ∃ ms, record rows = .object ms ∧ ms.Perm rows := by
  refine ⟨_, rfl, ?_⟩
  induction rows using List.reverseRecOn with
  | nil => exact .refl _
  | append_singleton rows m ih =>
    rw [List.map_append, List.map_singleton, List.nodup_append] at h
    have hrows := ih h.1
    have hkey : m.1 ∉ (rows.foldl (fun ms m => insert m.1 m.2 ms) []).map Prod.fst := by
      rw [(hrows.map Prod.fst).mem_iff]
      exact fun hm => h.2.2 _ hm _ (by simp) rfl
    rw [List.foldl_append, List.foldl_cons, List.foldl_nil]
    exact (insert_perm hkey).trans ((hrows.cons _).trans (List.perm_append_singleton _ _).symm)

end Json

namespace Expression

open Store

/-- A numbered table has one member for each item. -/
theorem exists_table {α : Type} {f : Nat → Text} (hf : Function.Injective f) (g : α → Json)
    (xs : List α) :
    ∃ ms, Json.record ((xs.mapIdx fun i x => (f i, x)).map fun row => (row.1, g row.2)) =
        .object ms ∧
      (ms.map Prod.fst).Nodup ∧ ms.Perm (xs.mapIdx fun i x => (f i, g x)) := by
  have hrows : (xs.mapIdx fun i x => (f i, x)).map (fun row => (row.1, g row.2)) =
      xs.mapIdx fun i x => (f i, g x) := List.ext_getElem (by simp) (by simp)
  have hkeys : (xs.mapIdx fun i x => (f i, g x)).map Prod.fst = (List.range xs.length).map f :=
    List.ext_getElem (by simp) (by simp)
  have hnodup : ((xs.mapIdx fun i x => (f i, g x)).map Prod.fst).Nodup := by
    rw [hkeys]
    exact List.nodup_range.map hf
  obtain ⟨ms, hms, hperm⟩ := Json.exists_record_perm hnodup
  exact ⟨ms, by rw [hrows, hms], (hperm.map Prod.fst).nodup_iff.2 hnodup, hperm⟩

/-! ## Mentions -/

/-- The placeholders that a text mentions: a sign and the letters and digits behind it. -/
def mentions : Text → List Text
  | [] => []
  | c :: t =>
    if c = '#' ∨ c = ':' then (c :: t.takeWhile Char.isAlphanum) :: mentions t else mentions t

theorem stops_append {P : Char → Bool} {s : Text} (hs : s ≠ []) (h : Stops P s) (t : Text) :
    Stops P (s ++ t) := by
  obtain ⟨c, s, rfl⟩ := List.exists_cons_of_ne_nil hs
  exact stops_cons.2 (stops_cons.1 h)

theorem takeWhile_append_of_stops {P : Char → Bool} {t : Text} (h : Stops P t) (s : Text) :
    (s ++ t).takeWhile P = s.takeWhile P := by
  induction s with
  | nil => simpa using takeWhile_of_stops (u := []) (by simp) h
  | cons c s ih => rw [List.cons_append, List.takeWhile_cons, List.takeWhile_cons, ih]

/-- A text is searched part by part, if no part goes on with a letter or a digit. -/
theorem mentions_append {s t : Text} (h : Stops Char.isAlphanum t) :
    mentions (s ++ t) = mentions s ++ mentions t := by
  induction s with
  | nil => rfl
  | cons c s ih =>
    rw [List.cons_append, mentions, mentions, ih, takeWhile_append_of_stops h]
    split_ifs <;> rfl

/-- A text without signs. -/
def Plain (t : Text) : Prop := '#' ∉ t ∧ ':' ∉ t

instance : DecidablePred Plain := fun t => inferInstanceAs (Decidable ('#' ∉ t ∧ ':' ∉ t))

theorem mentions_append_of_plain {s : Text} (h : Plain s) (t : Text) :
    mentions (s ++ t) = mentions t := by
  induction s with
  | nil => rfl
  | cons c s ih =>
    simp only [Plain, List.mem_cons, not_or] at h
    have hc : ¬ (c = '#' ∨ c = ':') := not_or.2 ⟨Ne.symm h.1.1, Ne.symm h.2.1⟩
    rw [List.cons_append, mentions, if_neg hc, ih ⟨h.1.2, h.2.2⟩]

theorem mentions_of_plain {t : Text} (h : Plain t) : mentions t = [] := by
  simpa [mentions] using mentions_append_of_plain h []

/-- A sign with letters and digits behind it is one placeholder. -/
theorem mentions_cons {c : Char} {t : Text} (hc : c = '#' ∨ c = ':')
    (ht : ∀ x ∈ t, x.isAlphanum) : mentions (c :: t) = [c :: t] := by
  have hplain : Plain t := by
    constructor <;> intro h <;> cases ht _ h
  rw [mentions, if_pos hc, mentions_of_plain hplain, List.takeWhile_eq_self_iff.2 ht]

theorem mentions_numbered {c d : Char} (hc : c = '#' ∨ c = ':') (hd : d.isAlphanum) (i : Nat) :
    mentions (c :: d :: Text.ofNat i) = [c :: d :: Text.ofNat i] := by
  refine mentions_cons hc fun x hx => ?_
  rcases List.mem_cons.1 hx with rfl | hx
  · exact hd
  · rw [Char.isAlphanum, Text.isDigit_of_mem_ofNat hx, Bool.or_true]

theorem mentions_nameRef_append {t : Text} (h : Stops Char.isAlphanum t) (i : Nat) :
    mentions (nameRef i ++ t) = nameRef i :: mentions t := by
  rw [mentions_append h, nameRef, mentions_numbered (Or.inl rfl) rfl, List.singleton_append]

theorem mentions_valueRef_append {t : Text} (h : Stops Char.isAlphanum t) (k : Nat) :
    mentions (valueRef k ++ t) = valueRef k :: mentions t := by
  rw [mentions_append h, valueRef, mentions_numbered (Or.inr rfl) rfl, List.singleton_append]

/-- A text around two placeholders. -/
theorem mentions_pair {s t u : Text} {i k : Nat} (hs : Plain s) (ht : Plain t) (hu : Plain u)
    (hne : t ≠ []) (ht' : Stops Char.isAlphanum t) (hu' : Stops Char.isAlphanum u) :
    mentions (s ++ (nameRef i ++ (t ++ (valueRef k ++ u)))) = [nameRef i, valueRef k] := by
  rw [mentions_append_of_plain hs, mentions_nameRef_append (stops_append hne ht' _),
    mentions_append_of_plain ht, mentions_valueRef_append hu', mentions_of_plain hu]

theorem mentions_symbol (op : Operator) (i k : Nat) :
    mentions (nameRef i ++ ' ' :: symbol op ++ ' ' :: valueRef k) = [nameRef i, valueRef k] := by
  have htext : nameRef i ++ ' ' :: symbol op ++ ' ' :: valueRef k =
      [] ++ (nameRef i ++ ((' ' :: symbol op ++ [' ']) ++ (valueRef k ++ []))) := by simp
  have hplain : Plain (' ' :: symbol op ++ [' ']) := by cases op <;> decide
  rw [htext, mentions_pair (by decide) hplain (by decide) (by simp) (by simp) (by simp)]

theorem mentions_call {f : Text} (hf : Plain f) (i k : Nat) :
    mentions (f ++ nameRef i ++ ", ".toList ++ valueRef k ++ [')']) =
      [nameRef i, valueRef k] := by
  simp only [List.append_assoc]
  exact mentions_pair hf (by decide) (by decide) (by decide) (by simp) (by simp)

theorem mentions_between (i j k : Nat) :
    mentions (nameRef i ++ " BETWEEN ".toList ++ valueRef j ++ " AND ".toList ++ valueRef k) =
      [nameRef i, valueRef j, valueRef k] := by
  have hlast := mentions_valueRef_append (stops_nil _) k
  rw [List.append_nil] at hlast
  simp only [List.append_assoc]
  rw [mentions_nameRef_append (stops_append (by decide) (by simp) _),
    mentions_append_of_plain (by decide),
    mentions_valueRef_append (stops_append (by decide) (by simp) _),
    mentions_append_of_plain (by decide), hlast, mentions]

/-- A condition mentions its attribute, and then its values in order. -/
theorem mentions_condition (op : Operator) (i k : Nat) :
    mentions (condition op (nameRef i) k) =
      nameRef i :: (List.range' k (max 1 op.arity)).map valueRef := by
  cases op
  case between => exact mentions_between i k (k + 1)
  case begins => exact mentions_call (by decide) i k
  case contains => exact mentions_call (by decide) i k
  all_goals exact mentions_symbol _ i k

/-- The placeholders of some comparisons, one comparison after the other: that of the
    attribute, then those of the values, which are numbered from `k` on. -/
def placeholders (names : List Text) : Nat → List Comparison → List Text
  | _, [] => []
  | k, c :: cs => nameRef (names.idxOf c.name) ::
      ((List.range' k c.values.length).map valueRef ++ placeholders names (k + c.values.length) cs)

theorem placeholders_append (names : List Text) (k : Nat) (cs ds : List Comparison) :
    placeholders names k (cs ++ ds) =
      placeholders names k cs ++ placeholders names (k + (cs.flatMap (·.values)).length) ds := by
  induction cs generalizing k with
  | nil => rfl
  | cons c cs ih => simp [placeholders, ih, Nat.add_assoc]

/-- **An expression mentions the placeholders of its comparisons**, and no others. -/
theorem mentions_write {p : Predicate} (h : p.Saturated) (names : List Text) (k : Nat) :
    mentions (write names k p []) = placeholders names k p.comparisons := by
  induction p generalizing k with
  | leaf c =>
    have hc : c ∈ (Predicate.leaf c).comparisons := List.mem_singleton_self c
    rw [write, List.append_nil, mentions_condition, ← Comparison.length_values (h c hc)]
    simp [Predicate.comparisons, placeholders]
  | join l c r ihl ihr =>
    obtain ⟨hl, hr⟩ := List.forall_mem_append.1 h
    have htext : write names k (.join l c r) [] = ['('] ++ (write names k l [] ++
        ((')' :: separator c ++ ['(']) ++ (write names (k + l.values.length) r [] ++ [')']))) := by
      simp [write_join]
    have hplain : Plain (')' :: separator c ++ ['(']) := by cases c <;> decide
    rw [htext, mentions_append_of_plain (by decide),
      mentions_append (stops_append (by simp) (by simp) _), mentions_append_of_plain hplain,
      mentions_append (by simp), ihl hl, ihr hr, mentions_of_plain (by decide), List.append_nil,
      Predicate.comparisons, placeholders_append]
    rfl

/-! ## One placeholder for each attribute and for each value -/

/-- The placeholders of attributes are those of the comparisons, one after the other. -/
theorem filter_placeholders_names (names : List Text) (k : Nat) (cs : List Comparison) :
    (placeholders names k cs).filter (·.head? = some '#') =
      cs.map fun c => nameRef (names.idxOf c.name) := by
  induction cs generalizing k with
  | nil => rfl
  | cons c cs ih =>
    have hvalues : ((List.range' k c.values.length).map valueRef).filter
        (·.head? = some '#') = [] := by
      refine List.filter_eq_nil_iff.2 fun ref href => ?_
      obtain ⟨j, -, rfl⟩ := List.mem_map.1 href
      simp [valueRef]
    rw [placeholders, List.filter_cons_of_pos rfl, List.filter_append, hvalues, ih]
    rfl

/-- The placeholders of values are numbered one after the other. -/
theorem filter_placeholders_values (names : List Text) (k : Nat) (cs : List Comparison) :
    (placeholders names k cs).filter (·.head? = some ':') =
      (List.range' k (cs.flatMap (·.values)).length).map valueRef := by
  induction cs generalizing k with
  | nil => rfl
  | cons c cs ih =>
    have hvalues : ((List.range' k c.values.length).map valueRef).filter (·.head? = some ':') =
        (List.range' k c.values.length).map valueRef := by
      refine List.filter_eq_self.2 fun ref href => ?_
      obtain ⟨j, -, rfl⟩ := List.mem_map.1 href
      simp [valueRef]
    rw [placeholders, List.filter_cons_of_neg (by simp [nameRef]), List.filter_append, hvalues, ih,
      List.flatMap_cons, List.length_append, ← List.range'_append_1, List.map_append]

theorem head_of_mem_mentions {t ref : Text} (h : ref ∈ mentions t) :
    ref.head? = some '#' ∨ ref.head? = some ':' := by
  induction t with
  | nil => cases h
  | cons c t ih =>
    rw [mentions] at h
    split_ifs at h with hc
    · rcases List.mem_cons.1 h with rfl | h
      · simpa using hc
      · exact ih h
    · exact ih h

/-- Of two attributes the one with the smaller number occurs first. -/
theorem pairwise_eraseDups (xs : List Text) :
    xs.eraseDups.Pairwise fun a b => xs.idxOf a < xs.idxOf b := by
  induction xs using List.reverseRecOn with
  | nil => exact .nil
  | append_singleton xs x ih =>
    have hidx {a : Text} (ha : a ∈ xs.eraseDups) : (xs ++ [x]).idxOf a = xs.idxOf a :=
      List.idxOf_append_of_mem (List.mem_eraseDups.1 ha)
    have hold : xs.eraseDups.Pairwise fun a b => (xs ++ [x]).idxOf a < (xs ++ [x]).idxOf b := by
      refine ih.imp_of_mem fun ha hb hab => ?_
      rwa [hidx ha, hidx hb]
    rw [eraseDups_concat]
    split_ifs with hx
    · exact hold
    · refine List.pairwise_append.2 ⟨hold, List.pairwise_singleton _ _, fun a ha b hb => ?_⟩
      obtain rfl := List.mem_singleton.1 hb
      rw [hidx ha, List.idxOf_append_of_notMem hx, List.idxOf_cons_self]
      exact List.idxOf_lt_length_of_mem (List.mem_eraseDups.1 ha)

/-! ## Texts have no part in the expression -/

/-- The predicates have the same shape with the same operators, and the attributes of
    the second are those of the first renamed.  Of the values only the number counts. -/
inductive Alike (rename : Text → Text) : Predicate → Predicate → Prop
  | leaf {c d : Comparison} (hop : d.operator = c.operator) (hname : d.name = rename c.name)
      (hcount : d.operands.length = c.operands.length) : Alike rename (.leaf c) (.leaf d)
  | join {l l' r r' : Predicate} {c : Combinator} (hl : Alike rename l l')
      (hr : Alike rename r r') : Alike rename (.join l c r) (.join l' c r')

theorem eraseDups_map {f : Text → Text} (hf : Function.Injective f) (xs : List Text) :
    (xs.map f).eraseDups = xs.eraseDups.map f := by
  induction xs using List.reverseRecOn with
  | nil => rfl
  | append_singleton xs x ih =>
    rw [List.map_append, List.map_singleton, eraseDups_concat, eraseDups_concat, ih]
    simp only [List.mem_map_of_injective hf]
    split_ifs <;> simp

theorem idxOf_map {f : Text → Text} (hf : Function.Injective f) (xs : List Text) (x : Text) :
    (xs.map f).idxOf (f x) = xs.idxOf x := by
  induction xs with
  | nil => rfl
  | cons y xs ih =>
    have hbeq : (f y == f x) = (y == x) := by simp only [beq_eq_beq, hf.eq_iff]
    rw [List.map_cons, List.idxOf_cons, List.idxOf_cons, hbeq, ih]

namespace Alike

variable {rename : Text → Text} {p q : Predicate}

theorem map_name (h : Alike rename p q) :
    q.comparisons.map (·.name) = (p.comparisons.map (·.name)).map rename := by
  induction h with
  | leaf _ hname _ => simp [Predicate.comparisons, hname]
  | join _ _ ihl ihr => simp [Predicate.comparisons, ihl, ihr]

theorem length_values (h : Alike rename p q) : q.values.length = p.values.length := by
  induction h with
  | @leaf c d hop _ hcount =>
    obtain ⟨a, op, xs⟩ := c
    obtain ⟨b, op', ys⟩ := d
    obtain rfl : op' = op := hop
    have hlength : ys.length = xs.length := hcount
    cases op' <;> simp [Predicate.values, Predicate.comparisons, Comparison.values, hlength]
  | join _ _ ihl ihr => simp [Predicate.values_join, ihl, ihr]

theorem write_eq (hf : Function.Injective rename) (h : Alike rename p q) (names : List Text)
    (k : Nat) : write (names.map rename) k q [] = write names k p [] := by
  induction h generalizing k with
  | leaf hop hname _ => rw [write, write, hop, hname, idxOf_map hf]
  | join hl hr ihl ihr => rw [write_join, write_join, ihl, ihr, hl.length_values]

/-- **No attribute and no value has a part in the expression.** -/
theorem text_eq (hf : Function.Injective rename) (h : Alike rename p q) :
    (ofPredicate q).text = (ofPredicate p).text := by
  rw [ofPredicate, Predicate.names, h.map_name, eraseDups_map hf]
  exact h.write_eq hf p.names 0

end Alike

/-! ## The tables of a predicate -/

/-- The expression and its tables are exactly those of the predicate. -/
structure Tabulated (p : Predicate) (e : Expression) : Prop where
  /-- The attributes are those of the comparisons, … -/
  mem_names_iff : ∀ a, a ∈ e.names ↔ ∃ c ∈ p.comparisons, c.name = a
  /-- … each of them once, in order of first occurrence. -/
  names_ordered : e.names.Pairwise fun a b =>
    (p.comparisons.map (·.name)).idxOf a < (p.comparisons.map (·.name)).idxOf b
  /-- The values are those of the comparisons, in reading order. -/
  values_eq : e.values = p.comparisons.flatMap (·.values)
  /-- Each attribute has the placeholder of its number, and there are no others. -/
  names_table : ∃ ms, e.json.field? "ExpressionAttributeNames".toList = some (.object ms) ∧
    (ms.map Prod.fst).Nodup ∧ ms.Perm (e.names.mapIdx fun i a => (nameRef i, .string a))
  /-- Each value has the placeholder of its number, and there are no others. -/
  values_table : ∃ ms, e.json.field? "ExpressionAttributeValues".toList = some (.object ms) ∧
    (ms.map Prod.fst).Nodup ∧ ms.Perm (e.values.mapIdx fun i v => (valueRef i, v.json))
  /-- The expression mentions the attribute and the values of each comparison. -/
  mentions_eq : mentions e.text = placeholders e.names 0 p.comparisons
  /-- The attribute of each comparison is the one that the placeholder stands for. -/
  named : ∀ c ∈ p.comparisons, NameIs e.json (nameRef (e.names.idxOf c.name)) c.name
  /-- The values are mentioned one after the other. -/
  values_mentioned :
    (mentions e.text).filter (·.head? = some ':') = (List.range e.values.length).map valueRef
  /-- What is mentioned stands for something, and what stands for something is mentioned. -/
  mem_mentions_iff : ∀ ref,
    ref ∈ mentions e.text ↔ (∃ a, NameIs e.json ref a) ∨ ∃ v, ValueIs e.json ref v

/-- What stands for an item of a list is the placeholder of a place in the list. -/
theorem exists_numbered_iff {α : Type} {xs : List α} {f : Nat → Text} {Item : Text → α → Prop}
    (hitem : ∀ {t x}, Item t x ↔ ∃ i, xs[i]? = some x ∧ t = f i) {ref : Text} :
    (∃ x, Item ref x) ↔ ∃ i < xs.length, ref = f i := by
  constructor
  · rintro ⟨x, hx⟩
    obtain ⟨i, hi, rfl⟩ := hitem.1 hx
    exact ⟨i, (List.getElem?_eq_some_iff.1 hi).1, rfl⟩
  · rintro ⟨i, hi, rfl⟩
    exact ⟨xs[i], hitem.2 ⟨i, List.getElem?_eq_getElem hi, rfl⟩⟩

theorem mem_names_iff {p : Predicate} {a : Text} :
    a ∈ p.names ↔ ∃ c ∈ p.comparisons, c.name = a := by
  rw [Predicate.names, List.mem_eraseDups, List.mem_map]

/-- The placeholders of the comparisons' attributes are all there are. -/
theorem mem_map_nameRef_iff {p : Predicate} {ref : Text} :
    ref ∈ p.comparisons.map (fun c => nameRef (p.names.idxOf c.name)) ↔
      ∃ i < p.names.length, ref = nameRef i := by
  have hnodup : p.names.Nodup := (pairwise_eraseDups _).imp fun hlt h => hlt.ne (by rw [h])
  rw [List.mem_map]
  constructor
  · rintro ⟨c, hc, rfl⟩
    exact ⟨_, List.idxOf_lt_length_of_mem (mem_names_iff.2 ⟨c, hc, rfl⟩), rfl⟩
  · rintro ⟨i, hi, rfl⟩
    obtain ⟨c, hc, hname⟩ := mem_names_iff.1 (List.getElem_mem hi)
    exact ⟨c, hc, by rw [hname, hnodup.idxOf_getElem i hi]⟩

theorem mentions_ofPredicate {p : Predicate} (h : p.Saturated) :
    mentions (ofPredicate p).text = placeholders p.names 0 p.comparisons :=
  mentions_write h p.names 0

theorem mem_mentions_ofPredicate_iff {p : Predicate} (h : p.Saturated) {ref : Text} :
    ref ∈ mentions (ofPredicate p).text ↔
      (∃ i < p.names.length, ref = nameRef i) ∨ ∃ i < p.values.length, ref = valueRef i := by
  have hnames := filter_placeholders_names p.names 0 p.comparisons
  have hvalues := filter_placeholders_values p.names 0 p.comparisons
  rw [← mentions_ofPredicate h] at hnames hvalues
  have hsplit : ref ∈ mentions (ofPredicate p).text ↔
      ref ∈ (mentions (ofPredicate p).text).filter (·.head? = some '#') ∨
        ref ∈ (mentions (ofPredicate p).text).filter (·.head? = some ':') := by
    simp only [List.mem_filter, decide_eq_true_eq, ← and_or_left]
    exact ⟨fun hm => ⟨hm, head_of_mem_mentions hm⟩, And.left⟩
  rw [hsplit, hnames, hvalues, mem_map_nameRef_iff, ← List.range_eq_range']
  simp only [List.mem_map, List.mem_range, eq_comm, Predicate.values]

/-- **The tables of a predicate are exact**: its attributes and values by number, each
    mentioned where it stands.  They come out the same if they are filled while the
    expression is written, and no attribute and no value has a part in the expression. -/
theorem tabulated_ofPredicate {p : Predicate} (h : p.Saturated) :
    Tabulated p (ofPredicate p) ∧
    ((Renderer.render p).text = (ofPredicate p).text ∧
      (Renderer.render p).names = (ofPredicate p).nameRows ∧
      (Renderer.render p).values = (ofPredicate p).valueRows ∧
      (Renderer.render p).index = (ofPredicate p).nameRows.map Prod.swap) ∧
    ∀ rename q, Function.Injective rename → Alike rename p q →
      (ofPredicate q).text = (ofPredicate p).text := by
  refine ⟨?_, Renderer.render_eq p, fun rename q hf hpq => hpq.text_eq hf⟩
  exact {
    mem_names_iff := fun a => mem_names_iff
    names_ordered := pairwise_eraseDups _
    values_eq := rfl
    names_table := by
      obtain ⟨ms, hms, hkeys, hperm⟩ := exists_table nameRef_injective Json.string p.names
      exact ⟨ms, congrArg some hms, hkeys, hperm⟩
    values_table := by
      obtain ⟨ms, hms, hkeys, hperm⟩ :=
        exists_table valueRef_injective AttributeValue.json p.values
      exact ⟨ms, congrArg some hms, hkeys, hperm⟩
    mentions_eq := mentions_ofPredicate h
    named := fun c hc => by
      have hmem : c.name ∈ p.names := mem_names_iff.2 ⟨c, hc, rfl⟩
      exact nameIs_json_iff.2 ⟨_, List.getElem?_idxOf hmem, rfl⟩
    values_mentioned := by
      rw [mentions_ofPredicate h, filter_placeholders_values, List.range_eq_range']
      rfl
    mem_mentions_iff := fun ref => by
      rw [exists_numbered_iff nameIs_json_iff, exists_numbered_iff valueIs_json_iff]
      exact mem_mentions_ofPredicate_iff h }

/-- Keywords, parentheses and placeholders among the values change nothing. -/
theorem tabulated_keywordValues :
    keywordValues.Saturated ∧ Tabulated keywordValues (ofPredicate keywordValues) ∧
    mentions (ofPredicate keywordValues).text = ["#n0".toList, ":v0".toList, "#n1".toList,
      ":v1".toList, ":v2".toList, "#n0".toList, ":v3".toList] :=
  ⟨by decide, (tabulated_ofPredicate (by decide)).1, by decide +kernel⟩

end Expression

end RecordFilter
