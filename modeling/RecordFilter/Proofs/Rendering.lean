/-
  Proofs.Rendering — an expression written in one pass.

  The expression is written from left to right with a stack of what is still to be
  written.  The tables grow on the way, and a new placeholder takes its number from
  the size of a table, so nothing but the invariant keeps two of them apart.

  * `put`: an entry of a table, which replaces one of the same key;
  * `Renderer`, `Renderer.run`: the expression so far with its tables, and the pass;
  * `Renderer.Holds`: what the tables hold after some comparisons;
  * `Renderer.Holds.leaf`: one comparison more;
  * `Renderer.Holds.node`: one predicate more, whatever is pending;
  * `Renderer.render_eq`: the pass gives the expression and the tables of the
    predicate.
-/
import RecordFilter.Proofs.Store
import RecordFilter.Scan.Match

namespace RecordFilter

namespace Expression

open Store

/-! ## Tables -/

section put

variable {α β : Type} [BEq α] [LawfulBEq α]

/-- Puts an entry into a table.  An entry of the same key gives way to it. -/
def put (key : α) (value : β) (table : List (α × β)) : List (α × β) :=
  table.filter (·.1 != key) ++ [(key, value)]

theorem put_of_forall_ne {key : α} {value : β} {table : List (α × β)}
    (h : ∀ row ∈ table, row.1 ≠ key) : put key value table = table ++ [(key, value)] := by
  rw [put, List.filter_eq_self.2 fun row hrow => bne_iff_ne.2 (h row hrow)]

/-- A number that is the size of the table is new. -/
theorem put_mapIdx {f : Nat → α} (hf : Function.Injective f) (xs : List β) (x : β) :
    put (f xs.length) x (xs.mapIdx fun i y => (f i, y)) =
      (xs ++ [x]).mapIdx fun i y => (f i, y) := by
  rw [List.mapIdx_concat, put_of_forall_ne]
  intro row hrow
  obtain ⟨i, hi, rfl⟩ := List.mem_mapIdx.1 hrow
  exact fun h => hi.ne (hf h)

theorem put_mapIdx_of_notMem {f : Nat → β} {xs : List α} {x : α} (hx : x ∉ xs) :
    put x (f xs.length) (xs.mapIdx fun i y => (y, f i)) =
      (xs ++ [x]).mapIdx fun i y => (y, f i) := by
  rw [List.mapIdx_concat, put_of_forall_ne]
  intro row hrow
  obtain ⟨i, hi, rfl⟩ := List.mem_mapIdx.1 hrow
  exact fun h => hx (h ▸ List.getElem_mem hi)

theorem lookup_mapIdx_of_mem {f : Nat → β} {xs : List α} {x : α} (hx : x ∈ xs) :
    (xs.mapIdx fun i y => (y, f i)).lookup x = some (f (xs.idxOf x)) := by
  induction xs generalizing f with
  | nil => cases hx
  | cons y xs ih =>
    rw [List.mapIdx_cons, List.lookup_cons, List.idxOf_cons]
    by_cases hxy : x = y
    · simp [hxy]
    · have hyx : (y == x) = false := beq_false_of_ne (Ne.symm hxy)
      have hmem : x ∈ xs := List.mem_of_ne_of_mem hxy hx
      simp [hyx, beq_false_of_ne hxy, ih hmem]

theorem lookup_mapIdx_of_notMem {f : Nat → β} {xs : List α} {x : α} (hx : x ∉ xs) :
    (xs.mapIdx fun i y => (y, f i)).lookup x = none := by
  rw [List.lookup_eq_none_iff]
  intro row hrow
  obtain ⟨i, hi, rfl⟩ := List.mem_mapIdx.1 hrow
  have hne : x ≠ xs[i] := fun h => hx (h ▸ List.getElem_mem hi)
  exact bne_iff_ne.2 hne

end put

theorem eraseDups_concat {α : Type} [BEq α] [LawfulBEq α] (xs : List α) (x : α)
    [Decidable (x ∈ xs)] :
    (xs ++ [x]).eraseDups = if x ∈ xs then xs.eraseDups else xs.eraseDups ++ [x] := by
  rw [List.eraseDups_append, List.removeAll]
  split_ifs with h
  · rw [List.filter_cons_of_neg (by simpa using h)]
    simp
  · rw [List.filter_cons_of_pos (by simpa using h)]
    rfl

/-- The distinct attributes of some comparisons, in order of first occurrence. -/
def attributes (cs : List Comparison) : List Text := (cs.map (·.name)).eraseDups

theorem attributes_concat (cs : List Comparison) (c : Comparison) :
    attributes (cs ++ [c]) =
      if c.name ∈ attributes cs then attributes cs else attributes cs ++ [c.name] := by
  rw [attributes, List.map_append, List.map_singleton, eraseDups_concat]
  simp only [attributes, List.mem_eraseDups]

theorem attributes_prefix (cs ds : List Comparison) :
    attributes cs <+: attributes (cs ++ ds) := by
  rw [attributes, attributes, List.map_append, List.eraseDups_append]
  exact List.prefix_append _ _

/-! ## The pass -/

/-- An expression so far, with its tables: what each placeholder stands for, and which
    one each attribute has. -/
structure Renderer where
  text : Text
  names : List (Text × Text)
  index : List (Text × Text)
  values : List (Text × AttributeValue)

/-- What is still to be written. -/
inductive Step where
  | node (p : Predicate)
  | keyword (c : Combinator)
  | close

/-- How much there is to be done for a step. -/
def Step.weight : Step → Nat
  | node p => 3 * p.size
  | keyword _ => 1
  | close => 1

namespace Renderer

/-- Nothing written. -/
def empty : Renderer := ⟨[], [], [], []⟩

/-- Writes a text. -/
def push (r : Renderer) (t : Text) : Renderer := { r with text := r.text ++ t }

/-- The placeholder of an attribute.  One that has none yet gets one. -/
def name (r : Renderer) (a : Text) : Text × Renderer :=
  match r.index.lookup a with
  | some ref => (ref, r)
  | none =>
    let ref := nameRef r.index.length
    (ref, { r with names := put ref a r.names, index := put a ref r.index })

/-- Gives a value a placeholder. -/
def value (r : Renderer) (v : AttributeValue) : Renderer :=
  { r with values := put (valueRef r.values.length) v r.values }

/-- Writes a comparison. -/
def leaf (r : Renderer) (c : Comparison) : Renderer :=
  let (ref, r') := r.name c.name
  (c.values.foldl value r').push (condition c.operator ref r'.values.length)

/-- Writes what is pending. -/
def run (r : Renderer) (pending : List Step) : Renderer :=
  match pending with
  | [] => r
  | .node (.leaf c) :: pending => run (r.leaf c) pending
  | .node (.join left c right) :: pending =>
    run (r.push ['(']) (.node left :: .keyword c :: .node right :: .close :: pending)
  | .keyword c :: pending => run (r.push (") ".toList ++ c.keyword ++ " (".toList)) pending
  | .close :: pending => run (r.push [')']) pending
termination_by (pending.map Step.weight).sum
decreasing_by
  · simp [Step.weight, Predicate.size]
  · simp only [List.map_cons, List.sum_cons, Step.weight, Predicate.size]
    omega
  · simp [Step.weight]
  · simp [Step.weight]

/-- Writes a predicate. -/
def render (p : Predicate) : Renderer := empty.run [.node p]

/-! ## What the tables hold -/

/-- The tables after some comparisons: the attributes and the values by number. -/
structure Holds (r : Renderer) (seen : List Comparison) : Prop where
  names : r.names = (attributes seen).mapIdx fun i a => (nameRef i, a)
  index : r.index = (attributes seen).mapIdx fun i a => (a, nameRef i)
  values : r.values = (seen.flatMap (·.values)).mapIdx fun i v => (valueRef i, v)

theorem holds_empty : empty.Holds [] := ⟨rfl, rfl, rfl⟩

variable {r : Renderer} {seen : List Comparison}

theorem Holds.push (h : r.Holds seen) (t : Text) : (r.push t).Holds seen :=
  ⟨h.names, h.index, h.values⟩

/-- An attribute keeps its number, or gets the next one. -/
theorem Holds.name (h : r.Holds seen) (c : Comparison) :
    ∃ r', r.name c.name = (nameRef ((attributes (seen ++ [c])).idxOf c.name), r') ∧
      r'.names = (attributes (seen ++ [c])).mapIdx (fun i a => (nameRef i, a)) ∧
      r'.index = (attributes (seen ++ [c])).mapIdx (fun i a => (a, nameRef i)) ∧
      r'.values = r.values ∧ r'.text = r.text := by
  rw [attributes_concat, Renderer.name, h.index]
  by_cases hc : c.name ∈ attributes seen
  · rw [lookup_mapIdx_of_mem hc, if_pos hc]
    exact ⟨r, rfl, h.names, h.index, rfl, rfl⟩
  · rw [lookup_mapIdx_of_notMem hc, if_neg hc, List.idxOf_append_of_notMem hc, List.idxOf_cons_self,
      h.names, List.length_mapIdx, ← put_mapIdx nameRef_injective, ← put_mapIdx_of_notMem hc]
    exact ⟨_, rfl, rfl, rfl, rfl, rfl⟩

theorem foldl_value {xs : List AttributeValue}
    (h : r.values = xs.mapIdx fun i v => (valueRef i, v)) (vs : List AttributeValue) :
    vs.foldl value r = { r with values := (xs ++ vs).mapIdx fun i v => (valueRef i, v) } := by
  induction vs generalizing r xs with
  | nil => rw [List.append_nil, ← h, List.foldl_nil]
  | cons v vs ih =>
    have hv : (r.value v).values = (xs ++ [v]).mapIdx fun i v => (valueRef i, v) := by
      rw [value, h, List.length_mapIdx, put_mapIdx valueRef_injective]
    rw [List.foldl_cons, ih hv, List.append_assoc]
    rfl

/-- **One comparison more**: its attribute keeps its number or gets the next one, and its
    values get the next ones. -/
theorem Holds.leaf (h : r.Holds seen) (c : Comparison) :
    (r.leaf c).Holds (seen ++ [c]) ∧
      (r.leaf c).text = r.text ++ condition c.operator
        (nameRef ((attributes (seen ++ [c])).idxOf c.name)) (seen.flatMap (·.values)).length := by
  obtain ⟨r', hname, hnames, hindex, hvalues, htext⟩ := h.name c
  have hvalues' := hvalues.trans h.values
  rw [Renderer.leaf, hname]
  dsimp only
  rw [foldl_value hvalues']
  refine ⟨⟨hnames, hindex, ?_⟩, ?_⟩
  · rw [List.flatMap_append]
    simp [Renderer.push]
  · rw [Renderer.push, htext, hvalues', List.length_mapIdx]

/-- **One predicate more**: whatever is pending behind it, the predicate is written, with
    the numbers that the attributes have in the end. -/
theorem Holds.node (h : r.Holds seen) (p : Predicate) (pending : List Step) :
    ∃ r' : Renderer, r.run (.node p :: pending) = r'.run pending ∧
      r'.Holds (seen ++ p.comparisons) ∧
      ∀ names, attributes (seen ++ p.comparisons) <+: names →
        r'.text = r.text ++ write names (seen.flatMap (·.values)).length p [] := by
  induction p generalizing r seen pending with
  | leaf c =>
    obtain ⟨hleaf, htext⟩ := h.leaf c
    refine ⟨r.leaf c, by rw [run], hleaf, ?_⟩
    rintro names ⟨more, rfl⟩
    have hc : c.name ∈ attributes (seen ++ [c]) :=
      List.mem_eraseDups.2 (List.mem_map_of_mem (by simp))
    rw [htext, Predicate.comparisons, write, List.idxOf_append_of_mem hc, List.append_nil]
  | join left c right ihl ihr =>
    obtain ⟨r₁, hrun₁, h₁, htext₁⟩ :=
      ihl (h.push ['(']) (.keyword c :: .node right :: .close :: pending)
    obtain ⟨r₂, hrun₂, h₂, htext₂⟩ :=
      ihr (h₁.push (") ".toList ++ c.keyword ++ " (".toList)) (.close :: pending)
    rw [List.append_assoc] at h₂ htext₂
    refine ⟨r₂.push [')'], ?_, h₂.push _, fun names hnames => ?_⟩
    · rw [run, hrun₁, run, hrun₂, run]
    · have hleft : attributes (seen ++ left.comparisons) <+: names := by
        refine List.IsPrefix.trans ?_ hnames
        rw [Predicate.comparisons, ← List.append_assoc]
        exact attributes_prefix _ _
      simp only [Renderer.push] at htext₁ htext₂ ⊢
      rw [htext₂ names hnames, htext₁ names hleft, write_join, List.flatMap_append,
        List.length_append]
      simp [Store.separator, Predicate.values]

/-- **The pass gives the expression of the predicate with its tables**, and the table by
    which attributes are found is the inverse of the table of names. -/
theorem render_eq (p : Predicate) :
    (render p).text = (ofPredicate p).text ∧ (render p).names = (ofPredicate p).nameRows ∧
      (render p).values = (ofPredicate p).valueRows ∧
      (render p).index = (ofPredicate p).nameRows.map Prod.swap := by
  obtain ⟨r, hrun, hr, htext⟩ := holds_empty.node p []
  have hrows : (ofPredicate p).nameRows =
      (attributes p.comparisons).mapIdx fun i a => (nameRef i, a) := rfl
  rw [run] at hrun
  rw [render, hrun]
  refine ⟨htext p.names List.prefix_rfl, hr.names, hr.values, ?_⟩
  rw [hr.index, hrows]
  exact List.ext_getElem (by simp) (by simp)

end Renderer

end Expression

end RecordFilter
