/-
  Proofs.Spans — block extraction in one scan.

  A scan finds all groups at once.  It keeps them in a list, where each is told by its
  number, and the open ones on a stack.  Of each group it notes the places of the
  parentheses, the height so far and the direct groups.  The groups are then put in order,
  and each is copied from the query with references for its direct groups.

  * `Survey.scan`: the scan, and `scanBlocks`: the blocks from it;
  * `Nest.spans`, `Nest.tops`: what the scan notes of a nest;
  * `Survey.scan_text`: the scan goes over the text of a nest, whatever is behind it;
  * `map_rankOf_order`: in the order of the groups each has the place that its rank says;
  * `substitute_tops`: a group is copied as its block text;
  * `scanBlocks_eq_extract`: the scan gives the blocks of a query, or fails as block
    extraction does.
-/
import RecordFilter.Proofs.Balance
import RecordFilter.Proofs.Passes

namespace RecordFilter

namespace Query

/-! ## The scan -/

/-- What is noted of a group: the places of its parentheses, its height, and the numbers of
    its direct groups. -/
structure Span where
  opening : Nat
  closing : Nat
  height : Nat
  children : List Nat
  deriving DecidableEq, Inhabited, Repr

/-- What a scan has found: all groups so far, the numbers of those outside all others, and
    those of the open ones, the innermost first, with the places of their parentheses. -/
structure Survey where
  spans : List Span
  topLevel : List Nat
  stack : List (Nat × Nat)
  deriving DecidableEq, Repr

namespace Survey

/-- A new group, opened in the innermost one that is open. -/
def opened (s : Survey) (place : Nat) : Survey :=
  let id := s.spans.length
  let spans := s.spans ++ [⟨place, place, 0, []⟩]
  match s.stack with
  | [] => ⟨spans, s.topLevel ++ [id], [(id, place)]⟩
  | (parent, p) :: stack =>
    ⟨spans.modify parent fun g => { g with children := g.children ++ [id] }, s.topLevel,
      (id, place) :: (parent, p) :: stack⟩

/-- The innermost open group is closed.  The one around it is higher by one, unless it
    already was. -/
def closed (s : Survey) (place : Nat) : Except Error Survey :=
  match s.stack with
  | [] => .error (.unbalancedParenthesis place)
  | (id, _) :: stack =>
    let spans := s.spans.modify id fun g => { g with closing := place }
    match stack with
    | [] => .ok ⟨spans, s.topLevel, []⟩
    | (parent, p) :: stack =>
      let height := (spans.getD id default).height + 1
      .ok ⟨spans.modify parent fun g => { g with height := max g.height height }, s.topLevel,
        (parent, p) :: stack⟩

/-- The scan of a text from a place on.  At the end no group may be open. -/
def scan (s : Survey) (quoted : Bool) (place : Nat) : Text → Except Error Survey
  | [] =>
    match s.stack.getLast? with
    | some (_, p) => .error (.unbalancedParenthesis p)
    | none => .ok s
  | c :: t =>
    if c = '"' then s.scan (!quoted) (place + 1) t
    else if c = '(' ∧ quoted = false then (s.opened place).scan quoted (place + 1) t
    else if c = ')' ∧ quoted = false then do (← s.closed place).scan quoted (place + 1) t
    else s.scan quoted (place + 1) t

end Survey

/-! ## The blocks -/

/-- A group comes before another one if it is lower, or as high and opened earlier. -/
def Span.precedes (g g' : Span) : Bool :=
  decide (g.height < g'.height ∨ g.height = g'.height ∧ g.opening ≤ g'.opening)

/-- The groups in the order of their blocks. -/
def order (spans : List Span) : List Nat :=
  (List.range spans.length).mergeSort fun i j =>
    (spans.getD i default).precedes (spans.getD j default)

/-- The number of each group's block. -/
def indexOf (order : List Nat) : List Nat :=
  order.zipIdx.foldl (fun index x => index.set x.1 x.2) (List.replicate order.length 0)

/-- The text between two places. -/
def slice (t : Text) (start stop : Nat) : Text := (t.take stop).drop start

/-- The text from the cursor up to `stop`, with references for the given groups. -/
def substitute (t : Text) (spans : List Span) (index : List Nat) (stop cursor : Nat) :
    List Nat → Text
  | [] => slice t cursor stop
  | child :: children =>
    let g := spans.getD child default
    slice t cursor g.opening ++ reference (index.getD child 0) ++
      substitute t spans index stop (g.closing + 1) children

/-- The text of a group, with references for its direct groups. -/
def Span.block (t : Text) (spans : List Span) (index : List Nat) (g : Span) : Text :=
  substitute t spans index g.closing (g.opening + 1) g.children

/-- The blocks of a query, from one scan. -/
def scanBlocks (query : Text) : Except Error (List Text) := do
  let s ← Survey.scan ⟨[], [], []⟩ false 0 query
  let index := indexOf (order s.spans)
  return (order s.spans).map (fun id => (s.spans.getD id default).block query s.spans index) ++
    [substitute query s.spans index query.length 0 s.topLevel]

/-! ## Queries at fault -/

namespace Survey

@[simp] theorem stack_opened (s : Survey) (place : Nat) :
    (s.opened place).stack = (s.spans.length, place) :: s.stack := by
  rw [opened]
  split <;> simp [*]

theorem closed_of_stack {s : Survey} {g : Nat × Nat} {stack : List (Nat × Nat)}
    (h : s.stack = g :: stack) (place : Nat) :
    ∃ s', s.closed place = .ok s' ∧ s'.stack = stack := by
  cases stack <;> simp [closed, h]

theorem scan_closing (s : Survey) (place : Nat) (t : Text) :
    s.scan false place (')' :: t) = (s.closed place).bind fun s' => s'.scan false (place + 1) t :=
  rfl

/-- A scan fails at the parenthesis without a partner. -/
theorem scan_of_unbalanced? {s : Survey} {b : Bool} {place p : Nat} {t : Text}
    (h : unbalanced? place (s.stack.map Prod.snd) (marks b t) = some p) :
    s.scan b place t = .error (.unbalancedParenthesis p) := by
  induction t generalizing s b place with
  | nil =>
    rw [marks, unbalanced?, List.getLast?_map, Option.map_eq_some_iff] at h
    obtain ⟨g, hg, rfl⟩ := h
    rw [scan, hg]
  | cons c t ih =>
    rw [marks] at h
    by_cases hq : c = '"'
    · rw [if_pos hq] at h
      rw [scan, if_pos hq, ih h]
    cases b with
    | true =>
      rw [if_neg hq, if_pos rfl] at h
      simpa [scan, hq] using ih h
    | false =>
      by_cases hopening : c = '('
      · subst hopening
        exact ih (s := s.opened place) (by simpa [unbalanced?] using h)
      by_cases hclosing : c = ')'
      · subst hclosing
        rw [scan_closing]
        cases hstack : s.stack with
        | nil => simp_all [unbalanced?, closed, Except.bind]
        | cons g stack =>
          obtain ⟨s', hclosed, hstack'⟩ := closed_of_stack hstack place
          rw [hclosed]
          exact ih (by simpa [hstack, hstack', unbalanced?] using h)
      · simp only [hq, hopening, hclosing, if_false, Bool.false_eq_true] at h
        simpa [scan, hq, hopening, hclosing] using ih h

end Survey

/-! ## What is noted of a nest -/

namespace Nest

variable {α : Type}

/-- The place behind a group and what follows it. -/
theorem add_length_text_group (p : Nat) (a : α) (i r : Nest α) :
    p + (group a i r).text.length = p + 1 + i.text.length + 1 + r.text.length := by
  simp only [text_group, List.cons_append, List.length_cons, List.length_append]
  omega

/-- The direct groups of a nest, if its groups are told from number `k` on. -/
def tops : Nat → Nest α → List Nat
  | _, done => []
  | k, char _ r => r.tops k
  | k, group _ i r => k :: r.tops (k + 1 + i.labels.length)

/-- What is noted of the groups of a nest at a place. -/
def spans : Nat → Nat → Nest α → List Span
  | _, _, done => []
  | p, k, char _ r => r.spans (p + 1) k
  | p, k, group _ i r =>
    ⟨p, p + 1 + i.text.length, i.heights.2, i.tops (k + 1)⟩ :: i.spans (p + 1) (k + 1) ++
      r.spans (p + 1 + i.text.length + 1) (k + 1 + i.labels.length)

@[simp] theorem length_spans (p k : Nat) (n : Nest α) :
    (n.spans p k).length = n.labels.length := by
  induction n generalizing p k with
  | done => rfl
  | char c r ih => exact ih _ _
  | group a i r ihi ihr => simp [spans, labels, ihi, ihr]

theorem map_height_spans (p k : Nat) (n : Nest α) :
    (n.spans p k).map Span.height = n.heights.1.labels := by
  induction n generalizing p k with
  | done => rfl
  | char c r ih => exact ih _ _
  | group a i r ihi ihr => simp [spans, heights, labels, ihi, ihr]

theorem le_opening_of_mem_spans {p k : Nat} {n : Nest α} {g : Span} (hg : g ∈ n.spans p k) :
    p ≤ g.opening ∧ g.opening < p + n.text.length := by
  induction n generalizing p k with
  | done => cases hg
  | char c r ih =>
    have := ih hg
    simp only [text_char, List.length_cons]
    omega
  | group a i r ihi ihr =>
    simp only [spans, List.cons_append, List.mem_cons, List.mem_append] at hg
    rw [add_length_text_group]
    rcases hg with rfl | hg | hg
    · simp only
      omega
    · have := ihi hg
      omega
    · have := ihr hg
      omega

/-- The groups are found in the order of their opening parentheses. -/
theorem pairwise_opening_spans (p k : Nat) (n : Nest α) :
    (n.spans p k).Pairwise (·.opening < ·.opening) := by
  induction n generalizing p k with
  | done => exact .nil
  | char c r ih => exact ih _ _
  | group a i r ihi ihr =>
    rw [spans, List.cons_append, List.pairwise_cons, List.pairwise_append]
    refine ⟨fun g hg => ?_, ihi _ _, ihr _ _, fun g hg g' hg' => ?_⟩
    · show p < g.opening
      rcases List.mem_append.1 hg with hg | hg
      · have := le_opening_of_mem_spans hg
        omega
      · have := le_opening_of_mem_spans hg
        omega
    · have := le_opening_of_mem_spans hg
      have := le_opening_of_mem_spans hg'
      omega

end Nest

/-- What is noted of the groups of a query. -/
def spansOf (query : Text) : List Span := (nestOf query).spans 0 0

/-! ## The scan of a nest -/

theorem modify_append_left {α : Type} {l l' : List α} {i : Nat} (f : α → α) (h : i < l.length) :
    (l ++ l').modify i f = l.modify i f ++ l' := by
  induction l generalizing i with
  | nil => simp at h
  | cons x l ih => cases i with
    | zero => rfl
    | succ i => simp [ih (Nat.lt_of_succ_lt_succ h)]

theorem modify_length_append {α : Type} (l : List α) (x : α) (l' : List α) (f : α → α) :
    (l ++ x :: l').modify l.length f = l ++ f x :: l' := by
  induction l with
  | nil => rfl
  | cons y l ih => simp [ih]

/-- The group with more direct groups, and at least as high. -/
def Span.taking (g : Span) (children : List Nat) (height : Nat) : Span :=
  { g with children := g.children ++ children, height := max g.height height }

namespace Survey

/-- The innermost open group has more direct groups, and is at least as high. -/
def taking (s : Survey) (children : List Nat) (height : Nat) : Survey :=
  match s.stack with
  | [] => { s with topLevel := s.topLevel ++ children }
  | (parent, _) :: _ =>
    { s with spans := s.spans.modify parent fun g => g.taking children height }

/-- More groups have been found. -/
def adding (s : Survey) (spans : List Span) : Survey := { s with spans := s.spans ++ spans }

/-- All open groups have been found. -/
def Sound (s : Survey) : Prop := ∀ g ∈ s.stack, g.1 < s.spans.length

/-- What a scan has found behind a nest. -/
def behind (s : Survey) (place : Nat) (n : Nest Nat) : Survey :=
  (s.taking (n.tops s.spans.length) n.heights.2).adding (n.spans place s.spans.length)

theorem taking_cons (spans : List Span) (topLevel : List Nat) (g : Nat × Nat)
    (stack : List (Nat × Nat)) (children : List Nat) (height : Nat) :
    taking ⟨spans, topLevel, g :: stack⟩ children height =
      ⟨spans.modify g.1 fun g => g.taking children height, topLevel, g :: stack⟩ :=
  rfl

@[simp] theorem stack_taking (s : Survey) (children : List Nat) (height : Nat) :
    (s.taking children height).stack = s.stack := by
  rw [taking]
  split <;> simp [*]

@[simp] theorem length_spans_taking (s : Survey) (children : List Nat) (height : Nat) :
    (s.taking children height).spans.length = s.spans.length := by
  rw [taking]
  split <;> simp

theorem modify_length_taking (s : Survey) (children : List Nat) (height : Nat) (g : Span)
    (spans : List Span) (f : Span → Span) :
    ((s.taking children height).spans ++ g :: spans).modify s.spans.length f =
      (s.taking children height).spans ++ f g :: spans := by
  rw [← length_spans_taking s children height, modify_length_append]

@[simp] theorem taking_nil (s : Survey) : s.taking [] 0 = s := by
  rw [taking]
  split
  · simp
  · have hid : (fun g : Span => g.taking [] 0) = id := by funext g; simp [Span.taking]
    rw [hid, List.modify_id]

theorem taking_taking (s : Survey) (children children' : List Nat) (height height' : Nat) :
    (s.taking children height).taking children' height' =
      s.taking (children ++ children') (max height height') := by
  cases hstack : s.stack with
  | nil => simp [taking, hstack]
  | cons g stack =>
    simp [taking, hstack, List.modify_modify_eq, Function.comp_def, Span.taking, max_assoc]

theorem adding_taking {s : Survey} (hs : s.Sound) (spans : List Span) (children : List Nat)
    (height : Nat) :
    (s.adding spans).taking children height = (s.taking children height).adding spans := by
  cases hstack : s.stack with
  | nil => simp [taking, adding, hstack]
  | cons g stack =>
    have hg : g.1 < s.spans.length := hs g (by simp [hstack])
    simp [taking, adding, hstack, modify_append_left _ hg]

theorem opened_eq {s : Survey} (hs : s.Sound) (place : Nat) :
    s.opened place = { (s.taking [s.spans.length] 0).adding [⟨place, place, 0, []⟩] with
      stack := (s.spans.length, place) :: s.stack } := by
  cases hstack : s.stack with
  | nil => simp [opened, taking, adding, hstack]
  | cons g stack =>
    have hg : g.1 < s.spans.length := hs g (by simp [hstack])
    simp [opened, taking, adding, hstack, modify_append_left _ hg, Span.taking]

theorem Sound.opened {s : Survey} (hs : s.Sound) (place : Nat) : (s.opened place).Sound := by
  intro g hg
  rw [stack_opened, List.mem_cons] at hg
  rw [opened_eq hs]
  rcases hg with rfl | hg
  · simp [adding]
  · have := hs g hg
    simp only [adding, List.length_append, length_spans_taking]
    omega

/-- What is found behind a nest in a group just opened. -/
theorem behind_opened {s : Survey} (hs : s.Sound) (place : Nat) (n : Nest Nat) :
    (s.opened place).behind (place + 1) n =
      { (s.taking [s.spans.length] 0).adding
          (⟨place, place, n.heights.2, n.tops (s.spans.length + 1)⟩ ::
            n.spans (place + 1) (s.spans.length + 1)) with
        stack := (s.spans.length, place) :: s.stack } := by
  simp [opened_eq hs, behind, taking_cons, adding, modify_length_taking, Span.taking]

/-- What is found of a group, from its opening parenthesis to its closing one. -/
theorem closed_behind_opened {s : Survey} (hs : s.Sound) (place stop : Nat) (n : Nest Nat) :
    ((s.opened place).behind (place + 1) n).closed stop =
      .ok ((s.taking [s.spans.length] (n.heights.2 + 1)).adding
        (⟨place, stop, n.heights.2, n.tops (s.spans.length + 1)⟩ ::
          n.spans (place + 1) (s.spans.length + 1))) := by
  rw [behind_opened hs]
  cases hstack : s.stack with
  | nil => simp [closed, adding, taking, hstack, modify_length_append]
  | cons g stack =>
    have hg : g.1 < (s.taking [s.spans.length] 0).spans.length := by
      rw [length_spans_taking]
      exact hs g (by simp [hstack])
    have hparent : ((s.taking [s.spans.length] 0).spans.modify g.1 fun g =>
        { g with height := max g.height (n.heights.2 + 1) }) =
        (s.taking [s.spans.length] (n.heights.2 + 1)).spans := by
      simp [taking, hstack, List.modify_modify_eq, Function.comp_def, Span.taking]
    have htopLevel : (s.taking [s.spans.length] 0).topLevel =
        (s.taking [s.spans.length] (n.heights.2 + 1)).topLevel := by
      simp [taking, hstack]
    simp [closed, adding, modify_length_taking, modify_append_left _ hg, hparent, htopLevel,
      hstack]

theorem adding_adding (s : Survey) (spans spans' : List Span) :
    (s.adding spans).adding spans' = s.adding (spans ++ spans') := by
  simp [adding]

theorem Sound.taking {s : Survey} (hs : s.Sound) (children : List Nat) (height : Nat) :
    (s.taking children height).Sound := by
  simpa [Sound] using hs

theorem Sound.adding {s : Survey} (hs : s.Sound) (spans : List Span) : (s.adding spans).Sound := by
  intro g hg
  have := hs g hg
  simp only [Survey.adding, List.length_append]
  omega

/-- What is found of a group and of the nest behind it. -/
theorem behind_group {s : Survey} (hs : s.Sound) (place : Nat) (a : Nat) (i r : Nest Nat) :
    ((s.taking [s.spans.length] (i.heights.2 + 1)).adding
        (⟨place, place + 1 + i.text.length, i.heights.2, i.tops (s.spans.length + 1)⟩ ::
          i.spans (place + 1) (s.spans.length + 1))).behind (place + 1 + i.text.length + 1) r =
      s.behind place (.group a i r) := by
  have hlength : ((s.taking [s.spans.length] (i.heights.2 + 1)).adding
      (⟨place, place + 1 + i.text.length, i.heights.2, i.tops (s.spans.length + 1)⟩ ::
        i.spans (place + 1) (s.spans.length + 1))).spans.length =
      s.spans.length + 1 + i.labels.length := by
    simp only [adding, List.length_append, length_spans_taking, List.length_cons,
      Nest.length_spans]
    omega
  rw [behind, hlength, adding_taking (hs.taking _ _), taking_taking, adding_adding]
  rfl

theorem scan_char {s : Survey} {b : Bool} {place : Nat} {c : Char}
    (h : b = false → c ≠ '(' ∧ c ≠ ')') (t : Text) :
    s.scan b place (c :: t) = s.scan (if c = '"' then !b else b) (place + 1) t := by
  rw [scan]
  by_cases hq : c = '"'
  · rw [if_pos hq, if_pos hq]
  · rw [if_neg hq, if_neg hq, if_neg (fun hc => (h hc.2).1 hc.1),
      if_neg (fun hc => (h hc.2).2 hc.1)]

/-- **The scan goes over the text of a nest**, whatever is behind it. -/
theorem scan_text {n : Nest Nat} {s : Survey} {b : Bool} {place : Nat} {t : Text}
    (hs : s.Sound) (hn : n.Regular b) :
    s.scan b place (n.text ++ t) =
      (s.behind place n).scan (quotedAfter b n.text) (place + n.text.length) t := by
  induction n generalizing s b place t with
  | done => simp [behind, Nest.tops, Nest.spans, Nest.heights, adding, quotedAfter]
  | char c r ih =>
    rw [Nest.text_char, List.cons_append, scan_char hn.1, ih hs hn.2, quotedAfter,
      List.length_cons, Nat.add_right_comm, Nat.add_assoc place]
    rfl
  | group a i r ihi ihr =>
    obtain ⟨rfl, hi, hquoted, hr⟩ := hn
    -- the inside is scanned with the group on the stack, and closing it credits the one around
    have hclosed := closed_behind_opened hs place (place + 1 + i.text.length) i
    have hafter : quotedAfter false (Nest.group a i r).text = quotedAfter false r.text := by
      simp [quotedAfter, hquoted]
    calc s.scan false place ((Nest.group a i r).text ++ t)
        = (s.opened place).scan false (place + 1) (i.text ++ ')' :: (r.text ++ t)) := by
          simp [scan]
      _ = ((s.opened place).behind (place + 1) i).scan false (place + 1 + i.text.length)
            (')' :: (r.text ++ t)) := by
          rw [ihi (hs.opened place) hi, hquoted]
      _ = (s.behind place (.group a i r)).scan (quotedAfter false r.text)
            (place + 1 + i.text.length + 1 + r.text.length) t := by
          rw [scan_closing, hclosed, Except.bind, ihr ((hs.taking _ _).adding _) hr,
            behind_group hs place a]
      _ = _ := by rw [hafter, Nest.add_length_text_group]

/-- The scan of a balanced query finds the groups of its nest. -/
theorem scan_of_balanced {q : Text} (hq : Balanced q) :
    scan ⟨[], [], []⟩ false 0 q = .ok ⟨spansOf q, (nestOf q).tops 0, []⟩ := by
  have htext := hq.text_nestOf
  have hregular := (Nest.regular_of_toMarks hq.toMarks_nestOf).2
  have hscan : scan ⟨[], [], []⟩ false 0 ((nestOf q).text ++ []) = _ :=
    scan_text (by simp [Sound]) hregular
  rw [List.append_nil, htext] at hscan
  rw [hscan]
  rfl

/-- Two groups, the first of them around another one. -/
example : scan ⟨[], [], []⟩ false 0 "((a~)ORb~)AND(c~)".toList =
    .ok ⟨[⟨0, 9, 1, [1]⟩, ⟨1, 4, 0, []⟩, ⟨13, 16, 0, []⟩], [0, 2], []⟩ := by decide +kernel

end Survey

/-! ## The order of the groups -/

/-- The rank of a group among all by their heights. -/
def rankOf (spans : List Span) (id : Nat) : Nat := (ranks (spans.map Span.height)).getD id 0

section
variable {spans : List Span}

theorem rankOf_eq {i : Nat} (h : i < (spans.map Span.height).length) :
    rankOf spans i = rank (spans.map Span.height) ⟨i, h⟩ := by
  simp only [rankOf, ranks_eq, List.getD_eq_getElem?_getD, List.getElem?_ofFn, h, dif_pos,
    Option.getD_some]

theorem map_rankOf_range (spans : List Span) :
    (List.range spans.length).map (rankOf spans) = ranks (spans.map Span.height) := by
  refine List.ext_getElem (by simp) fun i hi hi' => ?_
  rw [List.getElem_map, List.getElem_range, rankOf, List.getD_eq_getElem _ _ hi']

/-- A group that comes before another one has a lower rank. -/
theorem rankOf_lt (hspans : spans.Pairwise (·.opening < ·.opening)) {i j : Nat}
    (hi : i < spans.length) (hj : j < spans.length) (hne : i ≠ j)
    (h : spans[i].precedes spans[j]) : rankOf spans i < rankOf spans j := by
  rw [rankOf_eq (by simpa using hi), rankOf_eq (by simpa using hj)]
  simp only [Span.precedes, decide_eq_true_eq] at h
  rcases h with hlt | ⟨heq, hle⟩
  · exact rank_lt_of_lt (by simpa using hlt)
  · refine rank_lt_of_eq (Fin.mk_lt_mk.2 ?_) (by simpa using heq)
    by_contra hij
    have := List.pairwise_iff_getElem.1 hspans j i hj hi (by omega)
    omega

theorem pairwise_order (spans : List Span) : (order spans).Pairwise fun i j =>
    ((spans.getD i default).precedes (spans.getD j default)) = true := by
  refine List.pairwise_mergeSort (fun i j k hij hjk => ?_) (fun i j => ?_) _
  · simp only [Span.precedes, decide_eq_true_eq] at hij hjk ⊢
    omega
  · simp only [Span.precedes, Bool.or_eq_true, decide_eq_true_eq]
    omega

theorem order_perm (spans : List Span) : (order spans).Perm (List.range spans.length) :=
  List.mergeSort_perm _ _

theorem mem_order {i : Nat} : i ∈ order spans ↔ i < spans.length := by
  rw [(order_perm spans).mem_iff, List.mem_range]

/-- **In the order of the groups each has the place that its rank says.** -/
theorem map_rankOf_order (hspans : spans.Pairwise (·.opening < ·.opening)) :
    (order spans).map (rankOf spans) = List.range spans.length := by
  have hperm : ((order spans).map (rankOf spans)).Perm (List.range spans.length) := by
    have hranks := ranks_perm (spans.map Span.height)
    rw [List.length_map, ← map_rankOf_range] at hranks
    exact ((order_perm spans).map _).trans hranks
  -- no group is twice in the order, so one that comes before another comes strictly before it
  have hsorted : ((order spans).map (rankOf spans)).Pairwise (· < ·) := by
    have hnodup : (order spans).Nodup := (order_perm spans).nodup_iff.2 List.nodup_range
    refine List.pairwise_map.2 (((pairwise_order spans).and hnodup).imp_of_mem ?_)
    rintro i j hi hj ⟨hprecedes, hne⟩
    have hi' := mem_order.1 hi
    have hj' := mem_order.1 hj
    rw [List.getD_eq_getElem _ _ hi', List.getD_eq_getElem _ _ hj'] at hprecedes
    exact rankOf_lt hspans hi' hj' hne hprecedes
  exact hperm.eq_of_pairwise (fun _ _ _ _ h h' => absurd h h'.asymm) hsorted
    List.pairwise_lt_range

/-- What is set at some places is found there. -/
theorem getElem?_foldl_set (f : Nat → Nat) (ids index : List Nat) (j : Nat) :
    (ids.foldl (fun index id => index.set id (f id)) index)[j]? =
      if j ∈ ids ∧ j < index.length then some (f j) else index[j]? := by
  induction ids generalizing index with
  | nil => simp
  | cons id ids ih =>
    simp only [List.foldl_cons, ih, List.length_set, List.getElem?_set, List.mem_cons]
    by_cases hj : id = j
    · subst hj
      by_cases hlt : id < index.length <;> simp [hlt]
    · simp [hj, Ne.symm hj]

/-- The number of a group's block is its rank. -/
theorem indexOf_order (hspans : spans.Pairwise (·.opening < ·.opening)) :
    indexOf (order spans) = ranks (spans.map Span.height) := by
  have hlength : (order spans).length = spans.length := by
    simpa using (order_perm spans).length_eq
  have hzip : (order spans).zipIdx = (order spans).map fun i => (i, rankOf spans i) := by
    rw [List.zipIdx_eq_zip_range', hlength, ← List.range_eq_range', ← map_rankOf_order hspans]
    simpa using (List.zip_map' (f := id) (g := rankOf spans) (l := order spans))
  rw [indexOf, hzip, List.foldl_map, ← map_rankOf_range]
  refine List.ext_getElem? fun j => ?_
  simp only [getElem?_foldl_set, List.length_replicate, hlength, mem_order]
  by_cases hj : j < spans.length <;> simp [hj]

end

/-! ## The text of a group -/

theorem slice_self (t : Text) (p : Nat) : slice t p p = [] := by
  simp [slice]

theorem slice_succ {t : Text} {c p : Nat} {x : Char} (hcp : c ≤ p) (hx : t[p]? = some x) :
    slice t c (p + 1) = slice t c p ++ [x] := by
  have hp := (List.getElem?_eq_some_iff.1 hx).1
  rw [slice, slice, List.take_add_one, hx, List.drop_append_of_le_length (by simp; omega)]
  rfl

/-- Behind a part of what is ahead the rest is ahead. -/
theorem prefix_drop_of_append {α : Type} {l l₁ l₂ : List α} {i j : Nat}
    (h : l₁ ++ l₂ <+: l.drop i) (hj : j = i + l₁.length) : l₂ <+: l.drop j := by
  have := h.drop l₁.length
  rwa [List.drop_left, List.drop_drop, ← hj] at this

theorem prefix_drop_of_cons {α : Type} {l l' : List α} {x : α} {i : Nat}
    (h : x :: l' <+: l.drop i) : l' <+: l.drop (i + 1) := by
  have h' : [x] ++ l' <+: l.drop i := h
  exact prefix_drop_of_append h' rfl

theorem getElem?_of_prefix_drop {α : Type} {l l' : List α} {x : α} {i : Nat}
    (h : x :: l' <+: l.drop i) : l[i]? = some x := by
  obtain ⟨u, hu⟩ := h
  have hx : (l.drop i)[0]? = l[i + 0]? := List.getElem?_drop
  rw [← hu] at hx
  exact hx.symm

/-- A nest stands in a text at place `p`, and its groups are those from number `k` on. -/
structure Standing (t : Text) (spans : List Span) (index : List Nat) (p k : Nat)
    (n : Nest Nat) : Prop where
  text : n.text <+: t.drop p
  spans : n.spans p k <+: spans.drop k
  index : n.labels <+: index.drop k

namespace Standing

variable {t : Text} {spans : List Span} {index : List Nat} {p k : Nat}

theorem char_rest {c : Char} {r : Nest Nat} (h : Standing t spans index p k (.char c r)) :
    t[p]? = some c ∧ Standing t spans index (p + 1) k r :=
  ⟨getElem?_of_prefix_drop h.text, prefix_drop_of_cons h.text, h.spans, h.index⟩

variable {a : Nat} {i r : Nest Nat} (h : Standing t spans index p k (.group a i r))
include h

theorem span : spans.getD k default =
    ⟨p, p + 1 + i.text.length, i.heights.2, i.tops (k + 1)⟩ := by
  rw [List.getD_eq_getElem?_getD, getElem?_of_prefix_drop h.spans, Option.getD_some]

theorem label : index.getD k 0 = a := by
  rw [List.getD_eq_getElem?_getD, getElem?_of_prefix_drop h.index, Option.getD_some]

theorem inner : Standing t spans index (p + 1) (k + 1) i where
  text := by
    have htext : '(' :: (i.text ++ ')' :: r.text) <+: t.drop p := by simpa using h.text
    exact (List.prefix_append _ _).trans (prefix_drop_of_cons htext)
  spans := (List.prefix_append _ _).trans (prefix_drop_of_cons h.spans)
  index := (List.prefix_append _ _).trans (prefix_drop_of_cons h.index)

theorem rest : Standing t spans index (p + 1 + i.text.length + 1) (k + 1 + i.labels.length) r where
  text := by
    have htext : ('(' :: i.text ++ [')']) ++ r.text <+: t.drop p := by simpa using h.text
    refine prefix_drop_of_append htext ?_
    simp only [List.cons_append, List.length_cons, List.length_append, List.length_nil]
    omega
  spans := by
    refine prefix_drop_of_append h.spans ?_
    rw [List.length_cons, Nest.length_spans]
    omega
  index := by
    refine prefix_drop_of_append h.index ?_
    rw [List.length_cons]
    omega

end Standing

section
variable {t : Text} {spans : List Span} {index : List Nat}

/-- **A nest is copied as its block text**, behind what is left from the cursor on. -/
theorem substitute_tops {p k c : Nat} {n : Nest Nat} (h : Standing t spans index p k n)
    (hc : c ≤ p) :
    substitute t spans index (p + n.text.length) c (n.tops k) = slice t c p ++ n.blockText := by
  induction n generalizing p k c with
  | done => simp [Nest.tops, substitute, Nest.blockText]
  | char x r ih =>
    obtain ⟨hx, hr⟩ := h.char_rest
    have hplace : p + (Nest.char x r).text.length = p + 1 + r.text.length := by
      simp only [Nest.text_char, List.length_cons]
      omega
    rw [hplace, Nest.tops, ih hr (by omega), slice_succ hc hx, Nest.blockText, List.append_assoc]
    rfl
  | group a i r _ ih =>
    -- the cursor goes behind the group, so nothing is left over for what follows
    rw [Nest.add_length_text_group, Nest.tops, substitute]
    simp only [h.span, h.label]
    rw [ih h.rest le_rfl, slice_self, Nest.blockText]
    simp

/-- The groups of a nest are copied as the block texts of their insides. -/
theorem map_block_spans {p k : Nat} {n : Nest Nat} (h : Standing t spans index p k n) :
    (n.spans p k).map (Span.block t spans index) = n.groups.map fun g => g.2.blockText := by
  induction n generalizing p k with
  | done => rfl
  | char x r ih => exact ih h.char_rest.2
  | group a i r ihi ihr =>
    have hblock := substitute_tops h.inner le_rfl
    rw [slice_self, List.nil_append] at hblock
    simp only [Nest.spans, Nest.groups, List.cons_append, List.map_cons, List.map_append,
      ihi h.inner, ihr h.rest]
    rw [Span.block, hblock]

end

/-! ## The blocks of a query -/

theorem heights_number (n : Nest Unit) : n.number.heights = n.heights := by
  conv_rhs => rw [← Nest.bare_number n, Nest.bare, Nest.heights_map]

section
variable {q : Text}

/-- What the scan of a query finds are the groups of its nest. -/
theorem standing_nestOf (hq : Balanced q) :
    Standing q (spansOf q) (nestOf q).labels 0 0 (nestOf q) where
  text := by rw [hq.text_nestOf, List.drop_zero]
  spans := by rw [List.drop_zero, spansOf]
  index := by rw [List.drop_zero]

theorem length_spansOf (q : Text) : (spansOf q).length = (nestOf q).labels.length :=
  Nest.length_spans 0 0 _

theorem pairwise_opening_spansOf (q : Text) : (spansOf q).Pairwise (·.opening < ·.opening) :=
  Nest.pairwise_opening_spans 0 0 _

theorem ranks_spansOf (q : Text) : ranks ((spansOf q).map Span.height) = (nestOf q).labels := by
  rw [spansOf, Nest.map_height_spans, nestOf, heights_number, Nest.labels_number]

theorem indexOf_spansOf (q : Text) : indexOf (order (spansOf q)) = (nestOf q).labels := by
  rw [indexOf_order (pairwise_opening_spansOf q), ranks_spansOf]

/-- The group of a number is copied as the block text of its inside. -/
theorem block_spansOf (hq : Balanced q) {id : Nat} {g : Nat × Nest Nat}
    (hg : (nestOf q).groups[id]? = some g) :
    ((spansOf q).getD id default).block q (spansOf q) (nestOf q).labels = g.2.blockText := by
  have hblock : (spansOf q).map (Span.block q (spansOf q) (nestOf q).labels) =
      (nestOf q).groups.map fun g => g.2.blockText := map_block_spans (standing_nestOf hq)
  have hid : (spansOf q)[id]?.map (Span.block q (spansOf q) (nestOf q).labels) =
      some g.2.blockText := by
    rw [← List.getElem?_map, hblock, List.getElem?_map, hg, Option.map_some]
  obtain ⟨span, hspan, heq⟩ := Option.map_eq_some_iff.1 hid
  rw [List.getD_eq_getElem?_getD, hspan, Option.getD_some, heq]

/-- The groups in order are copied as the blocks. -/
theorem map_block_order (hq : Balanced q) :
    ((order (spansOf q)).map fun id =>
        ((spansOf q).getD id default).block q (spansOf q) (nestOf q).labels) =
      (List.range (nestOf q).groups.length).map fun i =>
        (((nestOf q).groups.lookup i).getD .done).blockText := by
  rw [Nest.length_groups, ← length_spansOf, ← map_rankOf_order (pairwise_opening_spansOf q),
    List.map_map]
  refine List.map_congr_left fun id hid => ?_
  obtain ⟨g, hg⟩ : ∃ g, (nestOf q).groups[id]? = some g := by
    have hlt := mem_order.1 hid
    rw [length_spansOf, ← Nest.length_groups] at hlt
    exact ⟨_, List.getElem?_eq_getElem hlt⟩
  have hrank : rankOf (spansOf q) id = g.1 := by
    rw [rankOf, ranks_spansOf, ← Nest.map_fst_groups, List.getD_eq_getElem?_getD,
      List.getElem?_map, hg]
    rfl
  rw [block_spansOf hq hg, Function.comp_apply, hrank,
    (numbered_nestOf q).lookup (List.mem_of_getElem? hg), Option.getD_some]

end

/-- **Block extraction gives the blocks of one scan**, and fails where the scan fails. -/
theorem scanBlocks_eq_extract (q : Text) : scanBlocks q = extract q := by
  cases h : unbalanced? 0 [] (marks false q) with
  | some p =>
    have hscan := Survey.scan_of_unbalanced? (s := ⟨[], [], []⟩) h
    rw [scanBlocks, hscan, extract_eq_error_iff_unbalanced?.2 ⟨p, h, rfl⟩]
    rfl
  | none =>
    have hq : Balanced q := Nest.unbalanced?_eq_none_iff.1 h
    have htop := substitute_tops (standing_nestOf hq) le_rfl
    rw [slice_self, List.nil_append, Nat.zero_add, hq.text_nestOf] at htop
    rw [extract_eq_ok_iff.2 ⟨hq, rfl⟩, scanBlocks, Survey.scan_of_balanced hq]
    simp only [bind, Except.bind, pure, Except.pure, indexOf_spansOf]
    rw [map_block_order hq, htop]
    rfl

end Query

end RecordFilter
