/-
  Proofs.Colors — colors do not change what a report says.

  A colored report is the plain one with control sequences in it.  No text from outside is
  looked into for that: the sequences are taken out wherever they stand, and what is left is
  the plain report, columns and all, if no escape character came in from outside.

  * `Text.stripSequences`: a text without its control sequences;
  * `Shows`: what is left of a text, whatever stands behind it, and `shows_paint`: of a
    painted text that text is left;
  * `Report.comparison_eq_of_byteCount`: a painted comparison is the written form cut behind
    the bytes of the name;
  * `Report.stripSequences_colored`: of every colored report the plain one is left.
-/
import RecordFilter.Proofs.JsonText
import RecordFilter.Proofs.Paths
import RecordFilter.Report

namespace RecordFilter

namespace Text

/-- What stands behind `[`, digits and `m`, if the text begins with that. -/
def behindSequence? : Text → Option Text
  | '[' :: t =>
    match t.takeWhile Char.isDigit, t.dropWhile Char.isDigit with
    | _ :: _, 'm' :: rest => some rest
    | _, _ => none
  | _ => none

theorem length_behindSequence? {t rest : Text} (h : behindSequence? t = some rest) :
    rest.length < t.length := by
  unfold behindSequence? at h
  split at h
  · next t =>
    split at h
    · next hrest =>
      obtain rfl := Option.some.inj h
      have hlength := (List.dropWhile_suffix Char.isDigit (l := t)).length_le
      rw [hrest] at hlength
      simp only [List.length_cons] at hlength ⊢
      omega
    · cases h
  · cases h

/-- The text without its control sequences: an escape character, `[`, digits and `m`. -/
def stripSequences : Text → Text
  | [] => []
  | c :: t =>
    if c = '\x1b' then
      match _h : behindSequence? t with
      | some rest => stripSequences rest
      | none => c :: stripSequences t
    else c :: stripSequences t
termination_by t => t.length
decreasing_by
  · have := length_behindSequence? _h
    simp only [List.length_cons]
    omega
  · simp
  · simp

theorem stripSequences_cons_of_ne {c : Char} (hc : c ≠ '\x1b') (t : Text) :
    stripSequences (c :: t) = c :: stripSequences t := by
  rw [stripSequences, if_neg hc]

theorem behindSequence?_digits {ds : Text} (hne : ds ≠ []) (hds : ∀ c ∈ ds, c.isDigit) (t : Text) :
    behindSequence? ('[' :: (ds ++ 'm' :: t)) = some t := by
  have htake : (ds ++ 'm' :: t).takeWhile Char.isDigit = ds := by
    rw [List.takeWhile_append_of_pos hds, List.takeWhile_cons_of_neg (by decide), List.append_nil]
  have hdrop : (ds ++ 'm' :: t).dropWhile Char.isDigit = 'm' :: t := by
    rw [List.dropWhile_append_of_pos hds, List.dropWhile_cons_of_neg (by decide)]
  obtain ⟨d, ds, rfl⟩ := List.exists_cons_of_ne_nil hne
  simp only [behindSequence?, htake, hdrop]

end Text

open Text (stripSequences)

theorem Style.stripSequences_sequence_append (n : Nat) (t : Text) :
    stripSequences (sequence n ++ t) = stripSequences t := by
  have htext : sequence n ++ t = '\x1b' :: '[' :: (Text.ofNat n ++ 'm' :: t) := by
    simp [sequence]
  have hbehind := Text.behindSequence?_digits (Text.ofNat_ne_nil n)
    (fun _ => Text.isDigit_of_mem_ofNat) t
  rw [htext, stripSequences, if_pos rfl]
  split
  · next rest h =>
    rw [hbehind] at h
    rw [Option.some.inj h]
  · next h =>
    rw [hbehind] at h
    cases h

theorem Style.stripSequences_start_append (style : Style) (t : Text) :
    stripSequences (style.start ++ t) = stripSequences t := by
  cases style <;> simp only [start, List.append_assoc, stripSequences_sequence_append]

theorem Style.stripSequences_stop_append (style : Style) (t : Text) :
    stripSequences (style.stop ++ t) = stripSequences t := by
  cases style <;> simp only [stop, List.append_assoc, stripSequences_sequence_append]

/-! ## What is left of a text -/

/-- Without its control sequences the text `s` is `t`, whatever stands behind it. -/
def Shows (s t : Text) : Prop := ∀ rest, stripSequences (s ++ rest) = t ++ stripSequences rest

namespace Shows

variable {s s' t t' : Text}

theorem eq (h : Shows s t) : stripSequences s = t := by
  have hnil : stripSequences [] = [] := by rw [stripSequences]
  simpa [hnil] using h []

theorem append (h : Shows s t) (h' : Shows s' t') : Shows (s ++ s') (t ++ t') := by
  intro rest
  rw [List.append_assoc, h, h', List.append_assoc]

/-- A text without escape characters is left as it is. -/
theorem of_notMem (h : '\x1b' ∉ t) : Shows t t := by
  intro rest
  induction t with
  | nil => rfl
  | cons c t ih =>
    simp only [List.mem_cons, not_or] at h
    rw [List.cons_append, Text.stripSequences_cons_of_ne (Ne.symm h.1), ih h.2, List.cons_append]

theorem cons {c : Char} (hc : c ≠ '\x1b') (h : Shows s t) : Shows (c :: s) (c :: t) :=
  append (of_notMem (t := [c]) (by simpa using hc.symm)) h

theorem line (h : Shows s t) : Shows (Text.line s) (Text.line t) :=
  h.append (of_notMem (by decide))

/-- **Of a painted text the text is left.** -/
theorem paint (palette : Palette) (style : Style) (h : '\x1b' ∉ t) :
    Shows (palette.paint style t) t := by
  cases palette with
  | plain => exact of_notMem h
  | colored =>
    intro rest
    rw [Palette.paint, List.append_assoc, List.append_assoc, style.stripSequences_start_append,
      of_notMem h, style.stripSequences_stop_append]

theorem flatten {ls ls' : List Text} (h : List.Forall₂ Shows ls ls') :
    Shows ls.flatten ls'.flatten := by
  induction h with
  | nil => exact of_notMem List.not_mem_nil
  | cons h _ ih => exact h.append ih

end Shows

theorem notMem_join {x : Char} {sep : Text} (hsep : x ∉ sep) {ts : List Text}
    (h : ∀ t ∈ ts, x ∉ t) : x ∉ Text.join sep ts := by
  induction ts with
  | nil => exact List.not_mem_nil
  | cons t ts ih =>
    obtain ⟨ht, hts⟩ := List.forall_mem_cons.1 h
    cases ts with
    | nil => simpa [Text.join] using ht
    | cons u ts =>
      have htext : Text.join sep (t :: u :: ts) = t ++ (sep ++ Text.join sep (u :: ts)) := by
        simp [Text.join]
      rw [htext, List.mem_append, List.mem_append, not_or, not_or]
      exact ⟨ht, hsep, ih hts⟩

namespace Report

/-! ## Trees -/

/-- **A painted comparison is its written form, cut behind the bytes of the name.** -/
theorem comparison_eq_of_byteCount (palette : Palette) (c : Comparison) {s rest : Text}
    (h : c.text = s ++ rest) (hs : s.byteCount = c.name.byteCount) :
    comparison palette c = palette.paint .cyan s ++ rest := by
  have hnil {u : Text} (hu : u.byteCount = 0) : u = [] := by
    cases u with
    | nil => rfl
    | cons x u =>
      have hx := x.utf8Size_pos
      rw [Text.byteCount] at hu
      omega
  rw [Comparison.text, List.append_eq_append_iff] at h
  rcases h with ⟨u, rfl, hrest⟩ | ⟨u, hname, hrest⟩
  · rw [Text.byteCount_append, Nat.add_eq_left] at hs
    obtain rfl := hnil hs
    rw [comparison, hrest, List.append_nil, List.nil_append]
  · rw [hname, Text.byteCount_append, Nat.left_eq_add] at hs
    obtain rfl := hnil hs
    rw [List.append_nil] at hname
    rw [comparison, hrest, hname, List.nil_append]

theorem shows_branch {first others : Text} (hfirst : '\x1b' ∉ first) (hothers : '\x1b' ∉ others)
    {ls ls' : List Text} (h : List.Forall₂ Shows ls ls') :
    List.Forall₂ Shows (branch first others ls) (branch first others ls') := by
  cases h with
  | nil => exact .nil
  | cons hl hls =>
    refine .cons ((Shows.of_notMem hfirst).append hl) ?_
    rw [List.forall₂_map_left_iff, List.forall₂_map_right_iff]
    exact hls.imp fun _ _ h => (Shows.of_notMem hothers).append h

/-- No escape character came in with the comparison. -/
def Uncolored (c : Comparison) : Prop :=
  '\x1b' ∉ c.name ∧ ∀ v ∈ c.operands, '\x1b' ∉ v

theorem escape_notMem_condition {c : Comparison} (h : Uncolored c) : '\x1b' ∉ c.condition := by
  have htoken : '\x1b' ∉ c.operator.token := by cases c.operator <;> decide +kernel
  have hvalues : ∀ t ∈ c.operands.map quoted, '\x1b' ∉ t := by
    intro t ht
    obtain ⟨v, hv, rfl⟩ := List.mem_map.1 ht
    simp [quoted, h.2 v hv]
  have hjoin : '\x1b' ∉ Text.join " AND ".toList (c.operands.map quoted) :=
    notMem_join (by decide +kernel) hvalues
  rw [Comparison.condition]
  split
  · decide +kernel
  · decide +kernel
  · rw [List.mem_append, List.mem_cons, not_or, not_or]
    exact ⟨htoken, by decide, hjoin⟩

theorem shows_comparison (palette : Palette) {c : Comparison} (h : Uncolored c) :
    Shows (comparison palette c) (comparison .plain c) :=
  (Shows.paint palette .cyan h.1).append
    ((Shows.of_notMem (escape_notMem_condition h)).cons (by decide))

theorem shows_treeLines (palette : Palette) {p : Predicate} (h : ∀ c ∈ p.comparisons, Uncolored c) :
    List.Forall₂ Shows (treeLines palette p) (treeLines .plain p) := by
  induction p with
  | leaf c => exact .cons (shows_comparison palette (h c (List.mem_singleton_self c))) .nil
  | join l c r ihl ihr =>
    obtain ⟨hl, hr⟩ := List.forall_mem_append.1 h
    have hkeyword : '\x1b' ∉ c.keyword := by cases c <;> decide +kernel
    have hfork : '\x1b' ∉ "├── ".toList := by decide +kernel
    have hbar : '\x1b' ∉ "│   ".toList := by decide +kernel
    have hlast : '\x1b' ∉ "└── ".toList := by decide +kernel
    have hgap : '\x1b' ∉ "    ".toList := by decide +kernel
    exact .cons (Shows.paint palette .boldYellow hkeyword)
      (List.rel_append (shows_branch hfork hbar (ihl hl)) (shows_branch hlast hgap (ihr hr)))

theorem shows_tree (palette : Palette) {p : Predicate} (h : ∀ c ∈ p.comparisons, Uncolored c) :
    Shows (tree palette p) (tree .plain p) := by
  rw [tree, tree, List.flatMap_def, List.flatMap_def]
  refine Shows.flatten ?_
  rw [List.forall₂_map_left_iff, List.forall₂_map_right_iff]
  exact (shows_treeLines palette h).imp fun _ _ h => h.line

/-! ## Tables -/

theorem escape_notMem_ofNat (n : Nat) : '\x1b' ∉ Text.ofNat n := by
  intro h
  exact absurd (Text.isDigit_of_mem_ofNat h) (by decide)

theorem escape_notMem_blanks (n : Nat) : '\x1b' ∉ Text.blanks n := by
  intro h
  exact absurd (List.eq_of_mem_replicate h) (by decide)

theorem escape_notMem_padRight {t : Text} (h : '\x1b' ∉ t) (width : Nat) :
    '\x1b' ∉ Text.padRight width t := by
  rw [Text.padRight, List.mem_append, not_or]
  exact ⟨h, escape_notMem_blanks _⟩

theorem escape_notMem_compact (v : Json) : '\x1b' ∉ v.compact := by
  intro h
  exact absurd (v.printable_compact _ h) (by decide)

theorem shows_blockRow (palette : Palette) (index : Nat) {block : Text} (h : '\x1b' ∉ block) :
    Shows (blockRow palette index block) (blockRow .plain index block) := by
  have hlabel : '\x1b' ∉ Query.reference index := by
    rw [Query.reference, List.mem_cons, not_or]
    exact ⟨by decide, escape_notMem_ofNat index⟩
  have hcount (n : Nat) : '\x1b' ∉ Text.padRight blockColumns.2 (Text.ofNat n) :=
    escape_notMem_padRight (escape_notMem_ofNat n) _
  have hblock := (Shows.of_notMem h).cons (c := ' ') (by decide)
  have hblanks (n : Nat) := Shows.of_notMem (escape_notMem_blanks n)
  exact (((Shows.paint palette .cyan hlabel).append (hblanks _)).append
    ((Shows.of_notMem (hcount _)).cons (by decide))).append hblock

/-- The rows of a table show what they show without colors, if every row does. -/
theorem shows_mapIdx {α : Type} {f g : Nat → α → Text} {xs : List α}
    (h : ∀ i, ∀ x ∈ xs, Shows (f i x) (g i x)) :
    Shows (xs.mapIdx f).flatten (xs.mapIdx g).flatten := by
  refine Shows.flatten (List.forall₂_iff_get.2 ⟨by simp, fun i hi _ => ?_⟩)
  simp only [List.length_mapIdx] at hi
  simpa using h i xs[i] (List.getElem_mem hi)

theorem shows_blockTable (palette : Palette) {blocks : List Text} (h : ∀ b ∈ blocks, '\x1b' ∉ b) :
    Shows (blockTable palette blocks) (blockTable .plain blocks) :=
  (Shows.paint palette .dimmed (by decide +kernel)).line.append
    (shows_mapIdx fun i b hb => (shows_blockRow palette i (h b hb)).line)

/-- No escape character is in the rows of placeholders, if none is in what they stand for. -/
theorem escape_notMem_placeholderRows {α : Type} {f : Nat → Text} (hf : ∀ i, '\x1b' ∉ f i)
    {g : α → Text} {xs : List α} (hg : ∀ x ∈ xs, '\x1b' ∉ g x) :
    '\x1b' ∉ (xs.mapIdx fun i x => (f i, x)).flatMap fun row => placeholderRow row.1 (g row.2) := by
  intro h
  obtain ⟨row, hrow, h⟩ := List.mem_flatMap.1 h
  obtain ⟨i, hi, rfl⟩ := List.mem_mapIdx.1 hrow
  have hpad := escape_notMem_padRight (hf i) placeholderColumn
  have hmeaning := hg _ (List.getElem_mem hi)
  simp [placeholderRow, Text.line, escape_notMem_blanks, hpad, hmeaning] at h

/-- Only the headings of the table are painted. -/
theorem shows_expressionTable (palette : Palette) {e : Expression} (htext : '\x1b' ∉ e.text)
    (hnames : ∀ a ∈ e.names, '\x1b' ∉ a) :
    Shows (expressionTable palette e) (expressionTable .plain e) := by
  have hheading (t : String) (ht : '\x1b' ∉ t.toList) :
      Shows (palette.paint .boldGreen t.toList) t.toList := Shows.paint palette .boldGreen ht
  have hnameRef (i : Nat) : '\x1b' ∉ Expression.nameRef i := by
    simp [Expression.nameRef, escape_notMem_ofNat]
  have hvalueRef (i : Nat) : '\x1b' ∉ Expression.valueRef i := by
    simp [Expression.valueRef, escape_notMem_ofNat]
  have hvalues : ∀ v ∈ e.values, '\x1b' ∉ v.json.compact := fun _ _ => escape_notMem_compact _
  have hnameRows := escape_notMem_placeholderRows hnameRef (g := id) hnames
  have hvalueRows := escape_notMem_placeholderRows hvalueRef hvalues
  have hline := ((hheading "FilterExpression:" (by decide +kernel)).append
    ((Shows.of_notMem htext).cons (c := ' ') (by decide))).line
  exact (((hline.append (hheading "ExpressionAttributeNames:" (by decide +kernel)).line).append
    (Shows.of_notMem hnameRows)).append
      (hheading "ExpressionAttributeValues:" (by decide +kernel)).line).append
        (Shows.of_notMem hvalueRows)

/-! ## Pages and carets -/

theorem escape_notMem_summary (page : Page) : '\x1b' ∉ summary page := by
  have hmatch (n : Nat) : '\x1b' ∉ (if n = 1 then "match" else "matches").toList := by
    split_ifs <;> decide +kernel
  have hopen : '\x1b' ∉ " (".toList := by decide +kernel
  have hclose : '\x1b' ∉ " records scanned)".toList := by decide +kernel
  have hnext : '\x1b' ∉ "; next page: --cursor ".toList := by decide +kernel
  simp only [summary, List.mem_append, List.mem_cons, not_or]
  refine ⟨⟨⟨⟨⟨?_, by decide, hmatch _⟩, hopen⟩, escape_notMem_ofNat _⟩, hclose⟩, ?_⟩
  · exact escape_notMem_ofNat _
  · cases page.next with
    | none => exact List.not_mem_nil
    | some n =>
      rw [List.mem_append, not_or]
      exact ⟨hnext, escape_notMem_ofNat n⟩

theorem shows_page (palette : Palette) (page : Page) :
    Shows (Report.page palette page) (Report.page .plain page) := by
  have hitems : '\x1b' ∉ page.items.flatMap fun r => Text.line r.compact := by
    intro h
    obtain ⟨r, -, h⟩ := List.mem_flatMap.1 h
    simp [Text.line, escape_notMem_compact] at h
  exact (Shows.of_notMem hitems).append
    (Shows.paint palette .dimmed (escape_notMem_summary page)).line

theorem shows_caret (palette : Palette) {query : Text} (h : '\x1b' ∉ query) (position : Nat) :
    Shows (caret palette query position) (caret .plain query position) := by
  have hblanks (n : Nat) := Shows.of_notMem (escape_notMem_blanks n)
  have hquery := ((hblanks 2).append (Shows.of_notMem h)).line
  have hcaret := Shows.paint palette .boldRed (t := ['^']) (by decide)
  exact hquery.append (((hblanks 2).append (hblanks _)).append hcaret).line

/-- **Colors do not change what a report says**: without its control sequences a colored report
    is the plain one, if no escape character came in from outside.  Records may hold some, since
    they are escaped.  A painted comparison is its written form, cut behind the bytes of the
    name. -/
theorem stripSequences_colored :
    (∀ p : Predicate, (∀ c ∈ p.comparisons, '\x1b' ∉ c.name ∧ ∀ v ∈ c.operands, '\x1b' ∉ v) →
      stripSequences (tree .colored p) = tree .plain p) ∧
    (∀ blocks, (∀ b ∈ blocks, '\x1b' ∉ b) →
      stripSequences (blockTable .colored blocks) = blockTable .plain blocks) ∧
    (∀ e : Expression, '\x1b' ∉ e.text → (∀ a ∈ e.names, '\x1b' ∉ a) →
      stripSequences (expressionTable .colored e) = expressionTable .plain e) ∧
    (∀ page, stripSequences (Report.page .colored page) = Report.page .plain page) ∧
    (∀ query position, '\x1b' ∉ query →
      stripSequences (caret .colored query position) = caret .plain query position) ∧
    ∀ palette c s rest, c.text = s ++ rest → s.byteCount = c.name.byteCount →
      comparison palette c = palette.paint .cyan s ++ rest :=
  ⟨fun _ h => (shows_tree .colored h).eq, fun _ h => (shows_blockTable .colored h).eq,
    fun _ htext hnames => (shows_expressionTable .colored htext hnames).eq,
    fun page => (shows_page .colored page).eq,
    fun _ position h => (shows_caret .colored h position).eq,
    fun palette c _ _ => comparison_eq_of_byteCount palette c⟩

/-- Names and values beyond ASCII, and a value that looks like the rest of a sequence. -/
def accents : Predicate := .and (.equal "é".toList "[0m│".toList) (.isFalse "b".toList)

theorem stripSequences_colored_accents :
    (∀ c ∈ accents.comparisons, '\x1b' ∉ c.name ∧ ∀ v ∈ c.operands, '\x1b' ∉ v) ∧
      (∀ b ∈ ["é~".toList, "$0ANDb~".toList], '\x1b' ∉ b) ∧
      tree .colored accents ≠ tree .plain accents ∧
      stripSequences (tree .colored accents) = tree .plain accents ∧
      stripSequences (blockTable .colored ["é~".toList, "$0ANDb~".toList]) =
        blockTable .plain ["é~".toList, "$0ANDb~".toList] ∧
      stripSequences (expressionTable .colored (.ofPredicate accents)) =
        expressionTable .plain (.ofPredicate accents) ∧
      stripSequences (caret .colored "é|".toList 1) = caret .plain "é|".toList 1 := by
  obtain ⟨htree, hblocks, hexpression, -, hcaret, -⟩ := stripSequences_colored
  have hp : ∀ c ∈ accents.comparisons, '\x1b' ∉ c.name ∧ ∀ v ∈ c.operands, '\x1b' ∉ v := by
    decide +kernel
  have hb : ∀ b ∈ ["é~".toList, "$0ANDb~".toList], '\x1b' ∉ b := by decide +kernel
  exact ⟨hp, hb, by decide +kernel, htree _ hp, hblocks _ hb,
    hexpression _ (by decide +kernel) (by decide +kernel), hcaret _ 1 (by decide +kernel)⟩

end Report

end RecordFilter
