/-
  Proofs.Paths — the directories above a path.

  * `Text.pieces_append`, `Text.join_pieces`, `Text.pieces_join`: cutting a text and
    joining the pieces;
  * `Path.steps_append`: a path that goes on behind a directory takes the steps to the
    directory first;
  * `Path.parents_eq`: the innermost directory above a path is a beginning of it, and the
    others are those above that directory; `Path.parents_induction`: induction along them.
-/
import RecordFilter.Files.Path
import RecordFilter.Proofs.Spelling

namespace RecordFilter

/-! ## Pieces -/

namespace Text

variable {sep : Char}

theorem pieces_ne_nil (sep : Char) (t : Text) : t.pieces sep ≠ [] := by
  cases t with
  | nil => exact List.cons_ne_nil _ _
  | cons c t =>
    rw [pieces]
    split_ifs
    · exact List.cons_ne_nil _ _
    · cases pieces sep t <;> exact List.cons_ne_nil _ _

theorem pieces_cons_of_ne {c : Char} (h : c ≠ sep) {t p : Text} {ps : List Text}
    (ht : t.pieces sep = p :: ps) : pieces sep (c :: t) = (c :: p) :: ps := by
  rw [pieces, if_neg h, ht]

theorem pieces_append (s t : Text) :
    pieces sep (s ++ sep :: t) = s.pieces sep ++ t.pieces sep := by
  induction s with
  | nil => simp [pieces]
  | cons c s ih =>
    by_cases hc : c = sep
    · simp only [List.cons_append, pieces, if_pos hc, ih]
    · obtain ⟨p, ps, hp⟩ := List.exists_cons_of_ne_nil (pieces_ne_nil sep s)
      rw [List.cons_append, pieces_cons_of_ne hc hp]
      rw [hp, List.cons_append] at ih
      rw [pieces_cons_of_ne hc ih, List.cons_append]

theorem notMem_of_mem_pieces {t p : Text} (h : p ∈ t.pieces sep) : sep ∉ p := by
  induction t generalizing p with
  | nil =>
    rw [pieces, List.mem_singleton] at h
    rw [h]
    exact List.not_mem_nil
  | cons c t ih =>
    by_cases hc : c = sep
    · rw [pieces, if_pos hc, List.mem_cons] at h
      rcases h with rfl | h
      · exact List.not_mem_nil
      · exact ih h
    · obtain ⟨q, qs, hq⟩ := List.exists_cons_of_ne_nil (pieces_ne_nil sep t)
      rw [pieces_cons_of_ne hc hq, List.mem_cons] at h
      rcases h with rfl | h
      · rw [List.mem_cons, not_or]
        exact ⟨Ne.symm hc, ih (hq ▸ List.mem_cons_self)⟩
      · exact ih (hq ▸ List.mem_cons_of_mem q h)

theorem join_singleton (t : Text) : join [sep] [t] = t := by simp [join]

theorem join_cons {ts : List Text} (h : ts ≠ []) (t : Text) :
    join [sep] (t :: ts) = t ++ sep :: join [sep] ts := by
  obtain ⟨u, us, rfl⟩ := List.exists_cons_of_ne_nil h
  simp [join]

theorem join_append {ss ts : List Text} (hs : ss ≠ []) (ht : ts ≠ []) :
    join [sep] (ss ++ ts) = join [sep] ss ++ sep :: join [sep] ts := by
  induction ss with
  | nil => exact absurd rfl hs
  | cons s ss ih =>
    cases ss with
    | nil => rw [List.singleton_append, join_cons ht, join_singleton]
    | cons s' ss =>
      rw [List.cons_append, join_cons (by simp), ih (List.cons_ne_nil _ _),
        join_cons (List.cons_ne_nil _ _), List.append_assoc, List.cons_append]

theorem join_pieces (t : Text) : join [sep] (t.pieces sep) = t := by
  induction t with
  | nil => rfl
  | cons c t ih =>
    by_cases hc : c = sep
    · rw [pieces, if_pos hc, join_cons (pieces_ne_nil sep t), ih, hc, List.nil_append]
    · obtain ⟨p, ps, hp⟩ := List.exists_cons_of_ne_nil (pieces_ne_nil sep t)
      rw [pieces_cons_of_ne hc hp]
      rw [hp] at ih
      cases ps with
      | nil => rw [join_singleton, ← ih, join_singleton]
      | cons q qs =>
        rw [join_cons (List.cons_ne_nil _ _)] at ih ⊢
        rw [List.cons_append, ih]

theorem pieces_join {ts : List Text} (hne : ts ≠ []) (h : ∀ t ∈ ts, sep ∉ t) :
    (join [sep] ts).pieces sep = ts := by
  induction ts with
  | nil => exact absurd rfl hne
  | cons t ts ih =>
    have ht := Query.pieces_of_notMem (h t List.mem_cons_self)
    cases ts with
    | nil => rw [join_singleton, ht]
    | cons u us =>
      have hts := ih (List.cons_ne_nil u us) fun x hx => h x (List.mem_cons_of_mem t hx)
      rw [join_cons (List.cons_ne_nil _ _), pieces_append, ht, hts, List.singleton_append]

theorem byteCount_append (s t : Text) : (s ++ t).byteCount = s.byteCount + t.byteCount := by
  induction s with
  | nil => simp [byteCount]
  | cons c s ih => simp [byteCount, ih, Nat.add_assoc]

end Text

/-! ## Paths that go on -/

namespace Path

theorem steps_append (o u : Text) :
    (ofText (o ++ separator :: u)).steps = (ofText o).steps ++ (ofText u).steps := by
  simp only [ofText, Text.pieces_append, List.filter_append, List.map_append]

theorem absolute_append {o : Text} (ho : o ≠ []) (u : Text) :
    (ofText (o ++ separator :: u)).absolute = (ofText o).absolute := by
  obtain ⟨c, o, rfl⟩ := List.exists_cons_of_ne_nil ho
  rfl

theorem ofName_ne_stay {name : Text} (h : name ≠ ['.']) : Step.ofName name ≠ .stay := by
  rw [Step.ofName, if_neg h]
  split_ifs <;> exact Step.noConfusion

theorem steps_join_append_cons {mid rest : List Text} {name : Text} (hne : name ≠ [])
    (hn : name ≠ ['.']) (h : ∀ n ∈ rest ++ name :: mid, separator ∉ n) :
    ∃ s ∈ (ofText (Text.join [separator] (rest ++ name :: mid))).steps, s ≠ .stay := by
  refine ⟨.ofName name, ?_, ofName_ne_stay hn⟩
  rw [ofText, Text.pieces_join (by simp) h]
  exact List.mem_map_of_mem (List.mem_filter.2 ⟨by simp, decide_eq_true hne⟩)

/-! ## The directories above -/

/-- The longest beginning of a path ends with its last significant name. -/
theorem beginnings_eq (names : List Text) : beginnings names = [] ∨
    ∃ skipped name rest, names = skipped ++ name :: rest ∧ name ≠ [] ∧
      (name = ['.'] → rest = []) ∧
      beginnings names = Text.join [separator] (name :: rest).reverse :: beginnings rest := by
  induction names with
  | nil => exact Or.inl rfl
  | cons name names ih =>
    rw [beginnings]
    split_ifs with hn
    · rcases ih with ih | ⟨skipped, last, rest, rfl, ih⟩
      · exact Or.inl ih
      · exact Or.inr ⟨name :: skipped, last, rest, rfl, ih⟩
    · rw [not_or, not_and_not_right] at hn
      exact Or.inr ⟨[], name, names, rfl, hn.1, hn.2, rfl⟩

theorem tail_beginnings_cons {name : Text} {names : List Text} (hne : name ≠ [])
    (hdot : name = ['.'] → names = []) : (beginnings (name :: names)).tail = beginnings names := by
  have h : ¬ (name = [] ∨ name = ['.'] ∧ names ≠ []) := by
    rw [not_or, not_and_not_right]
    exact ⟨hne, hdot⟩
  rw [beginnings, if_neg h, List.tail_cons]

/-- **The innermost directory above a path** is a beginning of the path, what follows it
    leaves it, and above it are the other directories above the path. -/
theorem parents_eq (t : Text) : parents t = [] ∨
    ∃ o u, t = o ++ separator :: u ∧ o ≠ [] ∧
      (∃ s ∈ (ofText u).steps, s ≠ .stay) ∧ parents t = o :: parents o := by
  rcases beginnings_eq (t.pieces separator).reverse with hb |
    ⟨skipped, last, rest, hn, hne, hdot, hb⟩
  · rw [parents, hb]
    exact Or.inl rfl
  rcases beginnings_eq rest with hr | ⟨between, name, rest, rfl, hne', hdot', hr⟩
  · rw [parents, hb, hr]
    exact Or.inl rfl
  have hpieces : t.pieces separator =
      (rest.reverse ++ [name]) ++ (between.reverse ++ last :: skipped.reverse) := by
    rw [← List.reverse_reverse (t.pieces separator), hn]
    simp
  have hsep : ∀ n ∈ (rest.reverse ++ [name]) ++ (between.reverse ++ last :: skipped.reverse),
      separator ∉ n := fun n hm => Text.notMem_of_mem_pieces (hpieces ▸ hm)
  have ho : ∀ n ∈ rest.reverse ++ [name], separator ∉ n :=
    fun n hm => hsep n (List.mem_append_left _ hm)
  refine Or.inr ⟨Text.join [separator] (rest.reverse ++ [name]),
    Text.join [separator] (between.reverse ++ last :: skipped.reverse), ?_, ?_, ?_, ?_⟩
  · rw [← Text.join_append (by simp) (by simp), ← hpieces, Text.join_pieces]
  · intro hnil
    have := Text.pieces_join (by simp) ho
    rw [hnil] at this
    have hmem : name ∈ ([[]] : List Text) := by
      rw [show ([[]] : List Text) = Text.pieces separator [] from rfl, this]
      simp
    exact hne' (List.mem_singleton.1 hmem)
  · refine steps_join_append_cons hne (fun h => ?_) fun n hm => hsep n (List.mem_append_right _ hm)
    simpa using hdot h
  · have hp : parents t = beginnings (between ++ name :: rest) := by
      rw [parents, hb, List.tail_cons]
    rw [hp, hr, parents, Text.pieces_join (by simp) ho, List.reverse_append, List.reverse_reverse,
      List.reverse_singleton, List.singleton_append, tail_beginnings_cons hne' hdot',
      List.reverse_cons]

/-- Induction on the directories above a path. -/
theorem parents_induction {P : Text → Prop} (base : ∀ t, parents t = [] → P t)
    (step : ∀ o u, o ≠ [] → (∃ s ∈ (ofText u).steps, s ≠ .stay) →
      parents (o ++ separator :: u) = o :: parents o → P o → P (o ++ separator :: u))
    (t : Text) : P t := by
  induction hn : t.length using Nat.strong_induction_on generalizing t with
  | _ n ih =>
    rcases parents_eq t with h | ⟨o, u, rfl, ho, hu, h⟩
    · exact base t h
    · have hlt : o.length < n := by
        rw [← hn, List.length_append, List.length_cons]
        omega
      exact step o u ho hu h (ih o.length hlt o rfl)

end Path

end RecordFilter
