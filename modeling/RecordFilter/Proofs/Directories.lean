/-
  Proofs.Directories — making the directories above a path.

  * `makeDirectories_cons`: what making the directories of several paths does, and
    `grows_makeParents`: there are only new directories;
  * `makeParents_of_has`: nothing is made above what is there;
  * `makeParents_makeParents`: directories are made once, and those that cannot be made
    still cannot;
  * `has_makeParents`: a path that leads nowhere, and on which no `..` leaves a missing
    directory, still leads nowhere when the directories above it are made.
-/
import RecordFilter.Proofs.FileTree
import RecordFilter.Proofs.Paths

namespace RecordFilter

namespace Files

variable {files files' : Files}

/-! ## Directories above one another -/

/-- What making the directories of several paths does. -/
theorem makeDirectories_cons (files : Files) (path : Text) (outer : List Text) :
    (∃ g, files.makeDirectory path = .ok g ∧
      files.makeDirectories (path :: outer) = (g, .ok ())) ∨
    (∃ e, files.makeDirectory path = .error e ∧ e ≠ .notFound ∧
      files.makeDirectories (path :: outer) =
        (files, if files.isDirectory path then .ok () else .error e)) ∨
    (files.makeDirectory path = .error .notFound ∧ ∃ g, (
      (∃ e, files.makeDirectories outer = (g, .error e) ∧
        files.makeDirectories (path :: outer) = (g, .error e)) ∨
      files.makeDirectories outer = (g, .ok ()) ∧ (
        (∃ g', g.makeDirectory path = .ok g' ∧
          files.makeDirectories (path :: outer) = (g', .ok ())) ∨
        ∃ e, g.makeDirectory path = .error e ∧
          files.makeDirectories (path :: outer) =
            (g, if g.isDirectory path then .ok () else .error e)))) := by
  rw [makeDirectories]
  cases hm : files.makeDirectory path with
  | ok g => exact Or.inl ⟨g, rfl, rfl⟩
  | error e =>
    by_cases he : e = .notFound
    · subst he
      refine Or.inr (Or.inr ⟨rfl, ?_⟩)
      rcases files.makeDirectories outer with ⟨g, e | u⟩
      · exact ⟨g, Or.inl ⟨e, rfl, rfl⟩⟩
      · refine ⟨g, Or.inr ⟨rfl, ?_⟩⟩
        cases hg : g.makeDirectory path with
        | ok g' => exact Or.inl ⟨g', rfl, by simp only [hg]⟩
        | error e => exact Or.inr ⟨e, rfl, by simp only [hg]⟩
    · refine Or.inr (Or.inl ⟨e, rfl, he, ?_⟩)
      cases e <;> first | rfl | exact absurd rfl he

theorem makeDirectories_of_isDirectory {path : Text} (h : files.isDirectory path)
    (outer : List Text) : files.makeDirectories (path :: outer) = (files, .ok ()) := by
  rw [makeDirectories, makeDirectory_of_isDirectory h]
  simp [h]

/-- What holds of a tree, and still holds when one of the directories is made, holds when
    they are made one after the other. -/
theorem makeDirectories_induction {P : Files → Prop} {paths : List Text}
    (step : ∀ path ∈ paths, ∀ {g g' : Files}, P g → g.makeDirectory path = .ok g' → P g')
    (h : P files) : P (files.makeDirectories paths).1 := by
  induction paths with
  | nil => exact h
  | cons path outer ih =>
    have ih := ih fun o ho => step o (List.mem_cons_of_mem path ho)
    have hpath := @step path List.mem_cons_self
    rcases makeDirectories_cons files path outer with ⟨g, hg, hr⟩ | ⟨e, -, -, hr⟩ |
      ⟨-, g, ⟨e, hg, hr⟩ | ⟨hg, ⟨g', hg', hr⟩ | ⟨e, -, hr⟩⟩⟩
    · rw [hr]
      exact hpath h hg
    · rw [hr]
      exact h
    · rw [hr]
      rwa [hg] at ih
    · rw [hr]
      rw [hg] at ih
      exact hpath ih hg'
    · rw [hr]
      rwa [hg] at ih

theorem Grows.makeDirectory {g : Files} (h : Grows files g) {path : Text}
    (hm : g.makeDirectory path = .ok files') : Grows files files' := by
  obtain ⟨-, steps, name, directory, -, -, -, -, hn, rfl⟩ := exists_of_makeDirectory hm
  exact h.put hn (List.cons_ne_nil _ _)

theorem grows_makeParents (files : Files) (path : Text) : Grows files (files.makeParents path).1 :=
  makeDirectories_induction (fun _ _ _ _ h hm => h.makeDirectory hm) (.refl files)

theorem checkPath_eq_ok_iff {path : Text} {u : Unit} :
    checkPath path = .ok u ↔ path ≠ [] ∧ path.byteCount ≤ maxPath := by
  rw [checkPath]
  split_ifs with hp hl hl
  · simp [hp, throw_bind_ne_ok]
  · simp [hp]
  · simp [Nat.not_le.2 hl]
  · simp [hp, Nat.le_of_not_lt hl, pure, Except.pure]

/-- A path that leads somewhere leads there by way of the directory that it begins with. -/
theorem isDirectory_of_walk {o u : Text} (ho : o ≠ [])
    (hc : checkPath (o ++ Path.separator :: u) = .ok ()) {ss : List Step} {place : Location}
    (hw : files.walk (files.start (.ofText (o ++ Path.separator :: u)))
      ((Path.ofText o).steps ++ ss) = .ok place)
    (hd : ss = [] → files.node? place = some .directory) : files.isDirectory o := by
  obtain ⟨m, hm, hw⟩ := walk_append_eq_ok_iff.1 hw
  have hstart : files.start (.ofText (o ++ Path.separator :: u)) = files.start (.ofText o) := by
    rw [start, start, Path.absolute_append ho u]
  rw [hstart] at hm
  refine isDirectory_eq_true_iff.2 ⟨?_, m, hm, directory_of_walk hw hd⟩
  rw [checkPath_eq_ok_iff, Text.byteCount_append] at hc
  exact checkPath_eq_ok_iff.2 ⟨ho, by omega⟩

/-- The directories above a file that is there are there. -/
theorem makeParents_of_has {path : Text} (h : files.has path) :
    files.makeParents path = (files, .ok ()) := by
  obtain ⟨place, hp⟩ := has_eq_true_iff.1 h
  obtain ⟨hc, hw, -⟩ := locate_eq_ok_iff.1 hp
  rw [makeParents]
  rcases Path.parents_eq path with hn | ⟨o, u, rfl, ho, ⟨s, hs, -⟩, hparents⟩
  · rw [hn]
    rfl
  · rw [hparents]
    rw [Path.steps_append o u] at hw
    exact makeDirectories_of_isDirectory
      (isDirectory_of_walk ho hc hw fun hnil => by rw [hnil] at hs; cases hs) _

/-- A directory that could be made is in one that is there. -/
theorem isDirectory_of_makeDirectory_append {o u : Text} (ho : o ≠ [])
    (hu : ∃ s ∈ (Path.ofText u).steps, s ≠ .stay)
    (h : files.makeDirectory (o ++ Path.separator :: u) = .ok files') : files.isDirectory o := by
  obtain ⟨hc, steps, name, directory, hs, hw, hd, -⟩ := exists_of_makeDirectory h
  rw [Path.steps_append o u] at hs
  obtain ⟨s, hsu, -⟩ := hu
  rcases List.eq_nil_or_concat (Path.ofText u).steps with hn | ⟨ss, last, hss⟩
  · rw [hn] at hsu
    cases hsu
  · rw [List.concat_eq_append] at hss
    rw [hss, ← List.append_assoc] at hs
    have hsteps := (List.append_inj' hs rfl).1
    rw [← hsteps] at hw
    exact isDirectory_of_walk ho hc hw fun _ => hd

section
variable {path : Text} {outer : List Text}

/-- Making directories succeeds iff the innermost one is there then, provided that it is
    not there when those above it cannot be made. -/
theorem isDirectory_iff_of_outer {r : Except FileError Unit}
    (h : files.makeDirectories (path :: outer) = (files', r))
    (ho : ∀ g e, files.makeDirectories outer = (g, .error e) → ¬ g.isDirectory path) :
    r = .ok () ↔ files'.isDirectory path := by
  have settled (g : Files) (e : FileError) :
      (if g.isDirectory path then .ok () else .error e) = (.ok () : Except FileError Unit) ↔
        g.isDirectory path := by
    split_ifs with hd <;> simp [hd]
  rcases makeDirectories_cons files path outer with ⟨g, hg, hr⟩ | ⟨e, -, -, hr⟩ |
    ⟨-, g, ⟨e, hg, hr⟩ | ⟨-, ⟨g', hg', hr⟩ | ⟨e, -, hr⟩⟩⟩ <;>
    obtain ⟨rfl, rfl⟩ := Prod.mk.inj (h.symm.trans hr)
  · simp [isDirectory_of_makeDirectory hg]
  · exact settled files' e
  · simp [ho files' e hg]
  · simp [isDirectory_of_makeDirectory hg']
  · exact settled files' e

/-- Nothing is made if neither the innermost directory nor one above it can be. -/
theorem makeDirectories_of_error {e : FileError} (h : files.makeDirectory path = .error e)
    (ho : (files.makeDirectories outer).1 = files) :
    (files.makeDirectories (path :: outer)).1 = files := by
  rcases makeDirectories_cons files path outer with ⟨g, hg, hr⟩ | ⟨e, -, -, hr⟩ |
    ⟨-, g, ⟨e, hg, hr⟩ | ⟨hg, ⟨g', hg', hr⟩ | ⟨e, -, hr⟩⟩⟩
  · rw [hg] at h
    cases h
  · rw [hr]
  · rw [hr]
    rwa [hg] at ho
  · rw [hg] at ho
    dsimp only at ho
    rw [ho, h] at hg'
    cases hg'
  · rw [hr]
    rwa [hg] at ho

/-- Directories are made once if those above the innermost one are, provided that it cannot
    be made when those above it cannot. -/
theorem makeDirectories_twice_of_outer
    (ho : ((files.makeDirectories outer).1.makeDirectories outer).1 =
      (files.makeDirectories outer).1)
    (he : ∀ g e, files.makeDirectories outer = (g, .error e) →
      ∀ g', g.makeDirectory path ≠ .ok g') :
    ((files.makeDirectories (path :: outer)).1.makeDirectories (path :: outer)).1 =
      (files.makeDirectories (path :: outer)).1 := by
  rcases makeDirectories_cons files path outer with ⟨g, hg, hr⟩ | ⟨e, -, -, hr⟩ |
    ⟨-, g, ⟨e, hg, hr⟩ | ⟨hg, ⟨g', hg', hr⟩ | ⟨e, hge, hr⟩⟩⟩
  · rw [hr, makeDirectories_of_isDirectory (isDirectory_of_makeDirectory hg)]
  · simp only [hr]
  · rw [hg] at ho
    rw [hr]
    cases hm : g.makeDirectory path with
    | ok g' => exact absurd hm (he g e hg g')
    | error e' => exact makeDirectories_of_error hm ho
  · rw [hr, makeDirectories_of_isDirectory (isDirectory_of_makeDirectory hg')]
  · rw [hg] at ho
    rw [hr]
    exact makeDirectories_of_error hge ho

end

/-- Making the directories above a path succeeds iff they are there then. -/
theorem isDirectory_iff_makeDirectories {o : Text} {r : Except FileError Unit}
    (h : files.makeDirectories (o :: Path.parents o) = (files', r)) :
    r = .ok () ↔ files'.isDirectory o := by
  induction o using Path.parents_induction generalizing files' r with
  | base o hp =>
    refine isDirectory_iff_of_outer h fun g e hg => ?_
    rw [hp] at hg
    cases hg
  | step o u ho hu hp ih =>
    refine isDirectory_iff_of_outer h fun g e hg hd => ?_
    rw [hp] at hg
    obtain ⟨hc, place, hw, hd⟩ := isDirectory_eq_true_iff.1 hd
    rw [Path.steps_append o u] at hw
    cases (ih hg).2 (isDirectory_of_walk ho hc hw fun _ => hd)

/-- **Directories are made once**: those that can be made are there after the first time,
    and the others still cannot be made. -/
theorem makeDirectories_twice (files : Files) (o : Text) :
    ((files.makeDirectories (o :: Path.parents o)).1.makeDirectories (o :: Path.parents o)).1 =
      (files.makeDirectories (o :: Path.parents o)).1 := by
  induction o using Path.parents_induction with
  | base o hp =>
    rw [hp]
    refine makeDirectories_twice_of_outer rfl fun g e hg => ?_
    cases hg
  | step o u ho hu hp ih =>
    rw [hp]
    refine makeDirectories_twice_of_outer ih fun g e hg g' hm => ?_
    cases (isDirectory_iff_makeDirectories hg).2 (isDirectory_of_makeDirectory_append ho hu hm)

theorem makeParents_makeParents (files : Files) (path : Text) :
    ((files.makeParents path).1.makeParents path).1 = (files.makeParents path).1 := by
  rw [makeParents, makeParents]
  rcases Path.parents_eq path with h | ⟨o, u, -, -, -, h⟩
  · rw [h]
    rfl
  · rw [h]
    exact makeDirectories_twice files o

/-! ## Paths that lead nowhere -/

/-- Everything stands in a directory. -/
def WellFormed (files : Files) : Prop :=
  ∀ name place, (files.node? (name :: place)).isSome → files.node? place = some .directory

theorem node?_empty {working place : Location} :
    (empty working).node? place = if place <:+ working then some .directory else none := by
  have hlookup (is : List Nat) : (is.map fun i => (working.drop i, Node.directory)).lookup place =
      if ∃ i ∈ is, working.drop i = place then some .directory else none := by
    induction is with
    | nil => simp
    | cons i is ih =>
      rw [List.map_cons, List.lookup_cons, ih]
      by_cases h : working.drop i = place
      · simp [h]
      · have : (place == working.drop i) = false := by simpa using Ne.symm h
        simp [h, this]
  rw [node?, empty]
  by_cases hp : place = []
  · simp [hp]
  · rw [if_neg hp, hlookup]
    congr 1
    rw [eq_iff_iff, List.suffix_iff_eq_drop]
    constructor
    · rintro ⟨i, hi, rfl⟩
      rw [List.length_drop, Nat.sub_sub_self (List.mem_range.1 hi).le]
    · intro h
      refine ⟨_, ?_, h.symm⟩
      have : 0 < place.length := List.length_pos_of_ne_nil hp
      have hle : working.length - place.length < working.length := by
        rw [h] at this
        rw [List.length_drop] at this
        omega
      exact List.mem_range.2 hle

theorem wellFormed_empty (working : Location) : (empty working).WellFormed := by
  intro name place h
  rw [node?_empty] at h ⊢
  split_ifs at h with hs
  · rw [if_pos ((List.suffix_cons name place).trans hs)]
  · cases h

/-- Whether no `..` of a path leaves a directory that is missing: up to the last one the
    path leads somewhere. -/
def LeavesNothingMissing (files : Files) (path : Text) : Prop :=
  ∃ passed rest, (Path.ofText path).steps = passed ++ rest ∧ .up ∉ rest ∧
    ∃ place, files.walk (files.start (.ofText path)) passed = .ok place

theorem length_foldl_target {ss : List Step} (h : .up ∉ ss) (origin : Location) :
    origin.length ≤ (ss.foldl Step.target origin).length ∧
      ((∃ s ∈ ss, s ≠ .stay) → origin.length < (ss.foldl Step.target origin).length) := by
  induction ss generalizing origin with
  | nil => exact ⟨le_rfl, by rintro ⟨s, hs, -⟩; cases hs⟩
  | cons s ss ih =>
    rw [List.mem_cons, not_or] at h
    obtain ⟨hle, hlt⟩ := ih h.2 (s.target origin)
    rw [List.foldl_cons]
    cases s with
    | stay =>
      refine ⟨hle, fun ⟨s, hs, hne⟩ => hlt ⟨s, ?_, hne⟩⟩
      exact (List.mem_cons.1 hs).resolve_left hne
    | up => exact absurd rfl h.1
    | down name =>
      have hlt : origin.length < (ss.foldl Step.target (name :: origin)).length := hle
      exact ⟨hlt.le, fun _ => hlt⟩

theorem exists_of_mem_parents {path o : Text} (h : o ∈ Path.parents path) :
    ∃ u, path = o ++ Path.separator :: u ∧ o ≠ [] ∧ ∃ s ∈ (Path.ofText u).steps, s ≠ .stay := by
  induction path using Path.parents_induction with
  | base t ht =>
    rw [ht] at h
    cases h
  | step o' u ho hu hp ih =>
    rw [hp, List.mem_cons] at h
    rcases h with rfl | h
    · exact ⟨u, rfl, ho, hu⟩
    · obtain ⟨u', rfl, hne, s, hs, hs'⟩ := ih h
      refine ⟨u' ++ Path.separator :: u, by simp, hne, s, ?_, hs'⟩
      rw [Path.steps_append]
      exact List.mem_append_left _ hs

/-- No directory above a path is made where the path leads, if from some place of the tree
    on the path has no `..`. -/
theorem node?_of_makeDirectory {path o : Text} (ho : o ∈ Path.parents path)
    {passed rest : List Step} (hs : (Path.ofText path).steps = passed ++ rest) (hup : .up ∉ rest)
    {place : Location} (hw : files.walk (files.start (.ofText path)) passed = .ok place)
    {g g' : Files} (hg : Grows files g) (hm : g.makeDirectory o = .ok g') :
    g'.node? (rest.foldl Step.target place) = g.node? (rest.foldl Step.target place) := by
  obtain ⟨-, steps, name, directory, hos, hwd, -, -, hn, rfl⟩ := exists_of_makeDirectory hm
  obtain ⟨u, rfl, hne, hu⟩ := exists_of_mem_parents ho
  have hstart : files.start (.ofText (o ++ Path.separator :: u)) = g.start (.ofText o) := by
    rw [hg.keeps.start, start, start, Path.absolute_append hne]
  rw [hstart] at hw
  rw [Path.steps_append] at hs
  refine node?_put_of_ne fun heq => ?_
  rcases List.append_eq_append_iff.1 hs with ⟨more, rfl, -⟩ | ⟨more, hmore, rfl⟩
  · -- the directory `o` is one that the path has passed
    obtain ⟨m, hm, -⟩ := walk_append_eq_ok_iff.1 hw
    have hm := hg.keeps.walk hm
    rw [hos, walk_append_eq_ok_iff] at hm
    obtain ⟨d, hd, hm⟩ := hm
    cases hwd.symm.trans hd
    have hsome := ((walk_cons_eq_ok_iff.1 hm).1.2 name rfl).2
    rw [hn] at hsome
    cases hsome
  · -- the path goes down from the directory `o`
    have hplace : name :: directory = more.foldl Step.target place := by
      rw [eq_of_walk hw, eq_of_walk hwd, ← List.foldl_append, ← hmore, hos, List.foldl_concat]
      rfl
    rw [List.foldl_append, ← hplace] at heq
    have hlt := (length_foldl_target (fun h => hup (List.mem_append_right _ h))
      (name :: directory)).2 hu
    rw [heq] at hlt
    exact lt_irrefl _ hlt

/-- A walk down to what stands there already needs no new directory. -/
theorem walk_of_grows (hf : files.WellFormed) {g : Files} (hg : Grows files g) {ss : List Step}
    (hup : .up ∉ ss) {origin place : Location} (hw : g.walk origin ss = .ok place)
    (hp : g.node? place = files.node? place) : files.walk origin ss = .ok place := by
  induction ss generalizing origin with
  | nil => exact hw
  | cons s ss ih =>
    rw [List.mem_cons, not_or] at hup
    obtain ⟨⟨hd, hn⟩, hw⟩ := walk_cons_eq_ok_iff.1 hw
    have ih := ih hup.2 hw
    -- something stands where the step leads
    have hsome : (files.node? (s.target origin)).isSome := by
      by_cases hss : ss = []
      · subst hss
        cases hw
        rw [← hp]
        cases s with
        | stay =>
          rw [Step.target, hd]
          rfl
        | up => exact absurd rfl hup.1
        | down name => exact (hn name rfl).2
      · rw [directory_of_walk ih fun h => absurd h hss]
        rfl
    refine walk_cons_eq_ok_iff.2 ⟨⟨?_, fun name hs => ⟨(hn name hs).1, ?_⟩⟩, ih⟩
    · cases s with
      | stay => exact (hg.of_isSome hsome).symm.trans hd
      | up => exact absurd rfl hup.1
      | down name => exact hf name origin hsome
    · subst hs
      exact hsome

/-- **Making the directories above a path** on which no `..` leaves a missing directory
    does not make the path lead somewhere. -/
theorem has_makeParents (hf : files.WellFormed) {path : Text} (hl : files.LeavesNothingMissing path)
    (h : (files.makeParents path).1.has path) : files.has path := by
  obtain ⟨passed, rest, hs, hup, origin, hw⟩ := hl
  obtain ⟨place, hp⟩ := has_eq_true_iff.1 h
  obtain ⟨hc, hwalk, hclosed⟩ := locate_eq_ok_iff.1 hp
  have hg := grows_makeParents files path
  rw [hs, hg.keeps.start] at hwalk
  obtain ⟨origin', hw', hrest⟩ := walk_append_eq_ok_iff.1 hwalk
  cases (hg.keeps.walk hw).symm.trans hw'
  have hnode : Grows files (files.makeParents path).1 ∧
      (files.makeParents path).1.node? place = files.node? place := by
    rw [eq_of_walk hrest]
    refine makeDirectories_induction (P := fun g => Grows files g ∧
      g.node? (rest.foldl Step.target origin) = files.node? (rest.foldl Step.target origin))
      (fun o ho g g' ⟨hg, hn⟩ hm => ⟨hg.makeDirectory hm, ?_⟩) ⟨.refl files, rfl⟩
    rw [node?_of_makeDirectory ho hs hup hw hg hm, hn]
  refine has_eq_true_iff.2 ⟨place, locate_eq_ok_iff.2 ⟨hc, ?_, fun h => hnode.2 ▸ hclosed h⟩⟩
  rw [hs, walk_append_eq_ok_iff]
  exact ⟨origin, hw, walk_of_grows hf hg hup hrest hnode.2⟩

end Files

end RecordFilter
