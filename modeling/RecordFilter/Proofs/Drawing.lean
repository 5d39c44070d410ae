/-
  Proofs.Drawing — the tree of a predicate shows its structure.

  The tree has a line for every node.  Before the label of a node stands a column for each
  side on the way to it, so its depth, the sides taken and the whole predicate can be read
  off the lines.

  * `Predicate.nodes`: the nodes in preorder, each with the way to it;
  * `columns`: what stands before a label, and `treeLines_plain`: the lines, node by node;
  * `eq_of_treeLines_eq`: the predicate is rebuilt from the lines;
  * `drawAll`: the tree in one pass, with a stack of what is still to be drawn;
  * `tree_of_compile`: all of this together.
-/
import RecordFilter.Proofs.WrittenForm
import RecordFilter.Report

namespace RecordFilter

/-! ## Nodes -/

/-- A side of a join. -/
inductive Side where
  | left
  | right
  deriving DecidableEq, Repr

namespace Predicate

/-- The node that some sides lead to, taken from the top. -/
def at? : Predicate → List Side → Option Predicate
  | p, [] => some p
  | leaf _, _ :: _ => none
  | join l _ _, .left :: way => l.at? way
  | join _ _ r, .right :: way => r.at? way

/-- The nodes in preorder, each with the way to it: a join stands before its left side, and
    that before its right side. -/
def nodes : Predicate → List (List Side × Predicate)
  | leaf c => [([], leaf c)]
  | join l c r =>
    ([], join l c r) :: l.nodes.map (fun x => (.left :: x.1, x.2)) ++
      r.nodes.map fun x => (.right :: x.1, x.2)

/-- What is shown of a node: a comparison in words, or the combinator of a join. -/
def label : Predicate → Text
  | leaf c => c.text
  | join _ c _ => c.keyword

/-- The first node is the top, and only that. -/
theorem exists_nodes_eq_cons (p : Predicate) :
    ∃ below, p.nodes = ([], p) :: below ∧ ∀ x ∈ below, x.1 ≠ [] := by
  cases p with
  | leaf c => exact ⟨[], rfl, by simp⟩
  | join l c r =>
    refine ⟨_, rfl, fun x hx => ?_⟩
    rcases List.mem_append.1 hx with hx | hx <;>
      obtain ⟨y, -, rfl⟩ := List.mem_map.1 hx <;> exact List.cons_ne_nil _ _

theorem mem_nodes_iff {p q : Predicate} {way : List Side} :
    (way, q) ∈ p.nodes ↔ p.at? way = some q := by
  induction p generalizing way with
  | leaf c => cases way <;> simp [nodes, at?, eq_comm]
  | join l c r ihl ihr =>
    cases way with
    | nil => simp [nodes, at?, eq_comm]
    | cons side way => cases side <;> simp [nodes, at?, ihl, ihr]

/-- One way comes before another: it is a beginning of it, or goes to the left where the two
    first differ. -/
abbrev Before : List Side → List Side → Prop := List.Lex fun s s' => s = .left ∧ s' = .right

theorem pairwise_before_nodes (p : Predicate) : (p.nodes.map (·.1)).Pairwise Before := by
  induction p with
  | leaf c => simp [nodes]
  | join l c r ihl ihr =>
    have hside (side : Side) {ways : List (List Side)} (h : ways.Pairwise Before) :
        (ways.map (side :: ·)).Pairwise Before :=
      List.pairwise_map.2 (h.imp fun hw => .cons hw)
    have hways : (join l c r).nodes.map (·.1) =
        [] :: ((l.nodes.map (·.1)).map (.left :: ·) ++ (r.nodes.map (·.1)).map (.right :: ·)) := by
      simp [nodes, Function.comp_def]
    rw [hways, List.pairwise_cons, List.pairwise_append]
    refine ⟨fun way hway => ?_, hside .left ihl, hside .right ihr, fun way hway way' hway' => ?_⟩
    · rcases List.mem_append.1 hway with hway | hway <;>
        obtain ⟨way', -, rfl⟩ := List.mem_map.1 hway <;> exact .nil
    · obtain ⟨left, -, rfl⟩ := List.mem_map.1 hway
      obtain ⟨right, -, rfl⟩ := List.mem_map.1 hway'
      exact .rel ⟨rfl, rfl⟩

theorem length_nodes (p : Predicate) : p.nodes.length + 1 = 2 * p.comparisons.length := by
  induction p with
  | leaf c => rfl
  | join l c r ihl ihr =>
    simp only [nodes, comparisons, List.cons_append, List.length_cons, List.length_append,
      List.length_map]
    omega

end Predicate

namespace Report

/-! ## Lines -/

/-- The branch to a side of a join. -/
def fork : Side → Text
  | .left => "├── ".toList
  | .right => "└── ".toList

/-- What stands below a branch: a bar to the right side, and nothing below that. -/
def bar : Side → Text
  | .left => "│   ".toList
  | .right => "    ".toList

/-- The columns before a node: one for each side on the way to it, the last one the branch
    to the node itself. -/
def columns (way : List Side) : List Text :=
  way.mapIdx fun j side => if j + 1 = way.length then fork side else bar side

theorem columns_cons (side : Side) (way : List Side) :
    columns (side :: way) = (if way = [] then fork side else bar side) :: columns way := by
  simp [columns, List.mapIdx_cons, eq_comm]

theorem length_of_mem_columns {way : List Side} {t : Text} (h : t ∈ columns way) :
    t.length = 4 := by
  obtain ⟨j, hj, rfl⟩ := List.mem_mapIdx.1 h
  split_ifs <;> cases way[j] <;> rfl

/-- The line of a node. -/
def nodeLine (way : List Side) (node : Predicate) : Text := (columns way).flatten ++ node.label

theorem nodeLine_cons (side : Side) (way : List Side) (node : Predicate) :
    nodeLine (side :: way) node =
      (if way = [] then fork side else bar side) ++ nodeLine way node := by
  simp [nodeLine, columns_cons]

/-- The lines of a side of a join stand behind its branch. -/
theorem branch_nodes (side : Side) (p : Predicate) :
    branch (fork side) (bar side) (p.nodes.map fun x => nodeLine x.1 x.2) =
      p.nodes.map fun x => nodeLine (side :: x.1) x.2 := by
  obtain ⟨below, hnodes, hbelow⟩ := p.exists_nodes_eq_cons
  rw [hnodes, List.map_cons, branch, List.map_cons, List.map_map, nodeLine_cons, if_pos rfl]
  refine congrArg _ (List.map_congr_left fun x hx => ?_)
  rw [nodeLine_cons, if_neg (hbelow x hx), Function.comp_apply]

theorem treeLines_join (palette : Palette) (l r : Predicate) (c : Combinator) :
    treeLines palette (.join l c r) =
      palette.paint .boldYellow c.keyword ::
        (branch (fork .left) (bar .left) (treeLines palette l) ++
          branch (fork .right) (bar .right) (treeLines palette r)) := rfl

/-- **The lines, node by node.** -/
theorem treeLines_plain (p : Predicate) :
    treeLines .plain p = p.nodes.map fun x => nodeLine x.1 x.2 := by
  induction p with
  | leaf c => rfl
  | join l c r ihl ihr =>
    rw [treeLines_join, ihl, ihr, branch_nodes, branch_nodes, Predicate.nodes, List.map_append,
      List.map_cons, List.map_map, List.map_map]
    rfl

theorem comparison_plain (c : Comparison) : comparison .plain c = c.text := rfl

/-- Lines with no line break in them are cut at the line breaks behind them. -/
theorem pieces_flatMap_line {ls : List Text} (h : ∀ l ∈ ls, '\n' ∉ l) :
    Text.pieces '\n' (ls.flatMap Text.line) = ls ++ [[]] := by
  induction ls with
  | nil => rfl
  | cons l ls ih =>
    obtain ⟨hl, hls⟩ := List.forall_mem_cons.1 h
    rw [List.flatMap_cons, Text.line, List.append_assoc, List.singleton_append,
      Query.pieces_append_cons hl, ih hls, List.cons_append]

theorem exists_of_mem_branch {first others t : Text} {ls : List Text}
    (h : t ∈ branch first others ls) : ∃ l ∈ ls, t = first ++ l ∨ t = others ++ l := by
  cases ls with
  | nil => cases h
  | cons l ls =>
    rcases List.mem_cons.1 h with rfl | h
    · exact ⟨l, List.mem_cons_self, Or.inl rfl⟩
    · obtain ⟨l', hl', rfl⟩ := List.mem_map.1 h
      exact ⟨l', List.mem_cons_of_mem _ hl', Or.inr rfl⟩

theorem newline_notMem_of_mem_treeLines {p : Predicate} (h : ∀ c ∈ p.comparisons, '\n' ∉ c.text) :
    ∀ t ∈ treeLines .plain p, '\n' ∉ t := by
  induction p with
  | leaf c => simpa [treeLines, comparison_plain, Predicate.comparisons] using h
  | join l c r ihl ihr =>
    obtain ⟨hl, hr⟩ := List.forall_mem_append.1 h
    have hbranch (side : Side) {ls : List Text} (hls : ∀ l ∈ ls, '\n' ∉ l) :
        ∀ t ∈ branch (fork side) (bar side) ls, '\n' ∉ t := by
      intro t ht
      have hfork : '\n' ∉ fork side := by cases side <;> decide +kernel
      have hbar : '\n' ∉ bar side := by cases side <;> decide +kernel
      obtain ⟨l, hl, rfl | rfl⟩ := exists_of_mem_branch ht
      · simp [hfork, hls l hl]
      · simp [hbar, hls l hl]
    have hkeyword : '\n' ∉ c.keyword := by cases c <;> decide +kernel
    exact List.forall_mem_append.2
      ⟨List.forall_mem_cons.2 ⟨hkeyword, hbranch .left (ihl hl)⟩, hbranch .right (ihr hr)⟩

/-! ## Rebuilding -/

/-- Whether a line belongs to the left side of the topmost join. -/
def isLeft (line : Text) : Bool := line.head? == some '├' || line.head? == some '│'

theorem branch_injective (first others : Text) : Function.Injective (branch first others) := by
  intro ls ls' h
  cases ls with
  | nil =>
    cases ls' with
    | nil => rfl
    | cons => cases h
  | cons l ls =>
    cases ls' with
    | nil => cases h
    | cons l' ls' =>
      obtain ⟨hl, hls⟩ := List.cons.inj h
      rw [List.append_cancel_left hl,
        List.map_injective_iff.2 (fun _ _ => List.append_cancel_left) hls]

/-- The sides of a join are told apart by the first characters of their lines. -/
theorem takeWhile_isLeft (ls rs : List Text) :
    (branch (fork .left) (bar .left) ls ++ branch (fork .right) (bar .right) rs).takeWhile isLeft =
      branch (fork .left) (bar .left) ls := by
  have hleft : ∀ t ∈ branch (fork .left) (bar .left) ls, isLeft t := by
    intro t ht
    obtain ⟨l, -, rfl | rfl⟩ := exists_of_mem_branch ht <;> rfl
  rw [List.takeWhile_append_of_pos hleft]
  cases rs with
  | nil => simp [branch]
  | cons r rs =>
    have hright : isLeft (fork .right ++ r) = false := rfl
    rw [branch, List.takeWhile_cons_of_neg (by simp [hright]), List.append_nil]

theorem branches_inj {ls ls' rs rs' : List Text}
    (h : branch (fork .left) (bar .left) ls ++ branch (fork .right) (bar .right) rs =
      branch (fork .left) (bar .left) ls' ++ branch (fork .right) (bar .right) rs') :
    ls = ls' ∧ rs = rs' := by
  have hleft := congrArg (List.takeWhile isLeft) h
  rw [takeWhile_isLeft, takeWhile_isLeft] at hleft
  rw [hleft] at h
  exact ⟨branch_injective _ _ hleft, branch_injective _ _ (List.append_cancel_left h)⟩

theorem length_treeLines (p : Predicate) :
    (treeLines .plain p).length + 1 = 2 * p.comparisons.length := by
  rw [treeLines_plain, List.length_map, p.length_nodes]

/-- Only a comparison has a single line. -/
theorem treeLines_join_ne_leaf (l r : Predicate) (c : Combinator) (c' : Comparison) :
    treeLines .plain (.join l c r) ≠ treeLines .plain (.leaf c') := by
  intro h
  have hjoin := length_treeLines (.join l c r)
  have hl := length_treeLines l
  have hr := length_treeLines r
  rw [h, Predicate.comparisons, List.length_append, treeLines, List.length_singleton] at hjoin
  omega

/-- **The predicate is rebuilt from the lines.** -/
theorem eq_of_treeLines_eq {p q : Predicate} (hp : p.Readable) (hq : q.Readable)
    (h : treeLines .plain p = treeLines .plain q) : p = q := by
  induction hp generalizing q with
  | leaf hc =>
    cases hq with
    | leaf hc' =>
      have htext := List.singleton_inj.1 h
      simp only [comparison_plain] at htext
      have := (Query.spellable_of_readComparison hc).text_append_inj
        (Query.spellable_of_readComparison hc') (congrArg (· ++ []) htext)
      rw [this.1]
    | join => exact absurd h.symm (treeLines_join_ne_leaf _ _ _ _)
  | join c hl hr ihl ihr =>
    cases hq with
    | leaf => exact absurd h (treeLines_join_ne_leaf _ _ _ _)
    | join c' hl' hr' =>
      obtain ⟨hkeyword, hsides⟩ := List.cons.inj h
      obtain ⟨hleft, hright⟩ := branches_inj hsides
      rw [Combinator.keyword_injective hkeyword, ihl hl' hleft, ihr hr' hright]

/-! ## Drawing in one pass -/

/-- What stands before the first line of a node and before all further ones, if `above`
    stands before the further lines of the join that it is a side of. -/
def margins (above : Text) : Option Side → Text × Text
  | none => ([], [])
  | some side => (above ++ fork side, above ++ bar side)

/-- Draws what is pending: nodes, each with what stands before the further lines of the join
    that it is a side of, and with that side. -/
def drawAll (palette : Palette) (pending : List (Predicate × Text × Option Side)) : Text :=
  match pending with
  | [] => []
  | (.leaf c, above, side) :: pending =>
    Text.line ((margins above side).1 ++ comparison palette c) ++ drawAll palette pending
  | (.join l c r, above, side) :: pending =>
    let others := (margins above side).2
    Text.line ((margins above side).1 ++ palette.paint .boldYellow c.keyword) ++
      drawAll palette ((l, others, some .left) :: (r, others, some .right) :: pending)
termination_by (pending.map (·.1.size)).sum
decreasing_by
  · simp [Predicate.size]
  · simp only [List.map_cons, List.sum_cons, Predicate.size]
    omega

theorem map_branch (above first others : Text) (ls : List Text) :
    (branch first others ls).map (above ++ ·) = branch (above ++ first) (above ++ others) ls := by
  cases ls <;> simp [branch]

/-- **Whatever is pending, a node is drawn before it**, behind its margins. -/
theorem drawAll_cons (palette : Palette) (p : Predicate) (above : Text) (side : Option Side)
    (pending : List (Predicate × Text × Option Side)) :
    drawAll palette ((p, above, side) :: pending) =
      (branch (margins above side).1 (margins above side).2 (treeLines palette p)).flatMap
        Text.line ++ drawAll palette pending := by
  induction p generalizing above side pending with
  | leaf c => rw [drawAll, treeLines, branch, List.map_nil, List.flatMap_singleton]
  | join l c r ihl ihr =>
    rw [drawAll, ihl, ihr, treeLines_join, branch, List.map_append, map_branch, map_branch,
      List.flatMap_cons, List.flatMap_append]
    simp only [margins, List.append_assoc]

theorem drawAll_top (palette : Palette) (p : Predicate) :
    drawAll palette [(p, [], none)] = tree palette p := by
  have hbranch (ls : List Text) : branch [] [] ls = ls := by cases ls <;> simp [branch]
  rw [drawAll_cons, margins, hbranch, drawAll, List.append_nil, tree]

end Report

namespace Query

/-! ## Compiled queries -/

theorem Spells.mem_text {t : Text} {c : Comparison} (h : Spells t c) {v : Text}
    (hv : v ∈ c.operands) {x : Char} (hx : x ∈ v) : x ∈ t := by
  have hquoted {vs : List Text} (hvs : v ∈ vs) : x ∈ quotedAll vs :=
    List.mem_flatMap.2 ⟨v, hvs, by simp [quoted, hx]⟩
  cases h with
  | nameFirst => exact List.mem_append_right _ (hquoted hv)
  | @operatorFirst _ _ vs ws hvs =>
    rcases List.mem_append.1 (hvs ▸ hv) with hv | hv
    · simp [hquoted hv]
    · simp [hquoted hv]

/-- The characters of values are characters of the text that reads. -/
theorem Nest.Reads.mem_text {part : Part} {n : Nest Nat} {p : Predicate} (h : n.Reads part p)
    {c : Comparison} (hc : c ∈ p.comparisons) {v : Text} (hv : v ∈ c.operands) {x : Char}
    (hx : x ∈ v) : x ∈ n.text := by
  induction h with
  | comparison h =>
    obtain rfl := List.mem_singleton.1 hc
    simpa using h.mem_text hv hx
  | group _ _ ih => simp [ih hc]
  | operand _ ih => exact ih hc
  | join _ _ _ ihn ihk =>
    rcases List.mem_append.1 hc with hc | hc
    · simp [ihn hc]
    · simp [ihk hc]

end Query

/-- No line break is written with values that hold none. -/
theorem AttributeValue.newline_notMem_writtenAll {vs : List AttributeValue}
    (h : ∀ t, .text t ∈ vs → '\n' ∉ t) : '\n' ∉ writtenAll vs := by
  have hvalue {v : AttributeValue} (hv : v ∈ vs) : '\n' ∉ v.written := by
    cases v with
    | text t =>
      rw [written]
      simp [quoted, h t hv]
    | flag b => cases b <;> decide +kernel
  induction vs with
  | nil => exact List.not_mem_nil
  | cons v vs ih =>
    cases vs with
    | nil => simpa [writtenAll_singleton] using hvalue List.mem_cons_self
    | cons w vs =>
      have hv := hvalue List.mem_cons_self
      have hvs := ih (fun t ht => h t (List.mem_cons_of_mem _ ht))
        fun hw => hvalue (List.mem_cons_of_mem _ hw)
      have hand : '\n' ∉ " AND ".toList := by decide +kernel
      simp only [writtenAll_cons_cons, List.mem_append, hv, hand, hvs, or_self,
        not_false_eq_true]

theorem Comparison.Spellable.newline_notMem_text {c : Comparison} (hc : c.Spellable)
    (h : ∀ v ∈ c.operands, '\n' ∉ v) : '\n' ∉ c.text := by
  have hname : '\n' ∉ c.name := fun hmem => by cases hc.isNameChar_of_mem '\n' hmem
  have hword : '\n' ∉ c.operator.word := by cases c.operator <;> decide +kernel
  have hvalues : '\n' ∉ AttributeValue.writtenAll c.values :=
    AttributeValue.newline_notMem_writtenAll fun t ht => h t (mem_operands_of_mem_values ht)
  simp [text, condition_eq, hname, hword, hvalues]

namespace Query

/-- No comparison of a compiled query is written with a line break. -/
theorem newline_notMem_of_compile {q : Text} {p : Predicate} (h : compile q = .ok p) :
    ∀ c ∈ p.comparisons, '\n' ∉ c.text := by
  intro c hc
  obtain ⟨hallowed, hb, hr, -⟩ := compile_eq_ok_iff.1 h
  refine (hr.readable.spellable c hc).newline_notMem_text fun v hv hx => ?_
  have hmem : '\n' ∈ q := hb.text_nestOf ▸ hr.mem_text hc hv hx
  exact absurd (hallowed _ hmem) (by decide)

end Query

namespace Report

/-- **The tree of a compiled query shows its predicate exactly.**  It has a line for each
    node in preorder: the columns of the way to the node, and its label.  There are twice as
    many as comparisons, less one, and no other query with another predicate has them.  The
    pass draws this tree. -/
theorem tree_of_compile {q : Text} {p : Predicate} (h : Query.compile q = .ok p) :
    (tree .plain p).pieces '\n' =
        (p.nodes.map fun x => (columns x.1).flatten ++ x.2.label) ++ [[]] ∧
      p.nodes.length = 2 * p.comparisons.length - 1 ∧
      (∀ way node, (way, node) ∈ p.nodes ↔ p.at? way = some node) ∧
      (p.nodes.map (·.1)).Pairwise Predicate.Before ∧
      (∀ way, (columns way).length = way.length ∧ ∀ t ∈ columns way, t.length = 4) ∧
      (∀ palette, drawAll palette [(p, [], none)] = tree palette p) ∧
      ∀ q' p', Query.compile q' = .ok p' → tree .plain p' = tree .plain p → p' = p := by
  have hlines {q : Text} {p : Predicate} (h : Query.compile q = .ok p) :
      (tree .plain p).pieces '\n' = treeLines .plain p ++ [[]] :=
    pieces_flatMap_line (newline_notMem_of_mem_treeLines (Query.newline_notMem_of_compile h))
  have hlength := p.length_nodes
  refine ⟨?_, by omega, fun way node => Predicate.mem_nodes_iff, p.pairwise_before_nodes,
    fun way => ⟨List.length_mapIdx, fun t => length_of_mem_columns⟩,
    fun palette => drawAll_top palette p, fun q' p' h' heq => ?_⟩
  · rw [hlines h, treeLines_plain]
    rfl
  · have hpieces := congrArg (Text.pieces '\n') heq
    rw [hlines h, hlines h', List.append_cancel_right_eq] at hpieces
    exact eq_of_treeLines_eq (Query.readable_of_compile h') (Query.readable_of_compile h) hpieces

/-- A predicate with joins on both sides. -/
def zigzag : Predicate :=
  .or (.and (.isFalse "a".toList) (.or (.isTrue "b".toList) (.equal "c".toList "OR".toList)))
    (.isTrue "a".toList)

theorem tree_of_compile_zigzag :
    Query.compile "(a~AND(~~bORc==\"OR\"))OR~~a".toList = .ok zigzag ∧
      (tree .plain zigzag).pieces '\n' = [
        "OR".toList,
        "├── AND".toList,
        "│   ├── a == false".toList,
        "│   └── OR".toList,
        "│       ├── b == true".toList,
        "│       └── c == \"OR\"".toList,
        "└── a == true".toList, []] ∧
      ∀ q p, Query.compile q = .ok p → tree .plain p = tree .plain zigzag → p = zigzag := by
  have h : Query.compile "(a~AND(~~bORc==\"OR\"))OR~~a".toList = .ok zigzag := rfl
  obtain ⟨hlines, -, -, -, -, -, hunique⟩ := tree_of_compile h
  exact ⟨h, hlines.trans (by decide +kernel), hunique⟩

end Report

end RecordFilter
