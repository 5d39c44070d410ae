/-
  Proofs.FileTree — what a new directory and a written file do to a tree of files.

  * `walk_cons_eq_ok_iff`, `walk_append_eq_ok_iff`: where steps lead;
  * `Keeps`: a tree in which what was there is still there, and `Keeps.walk`: paths lead to
    the same places in it;
  * `Grows`: a tree with nothing but new directories;
  * `exists_of_makeDirectory`, `makeDirectory_of_isDirectory`: making a directory, and one
    that is there;
  * `exists_of_write`, `read_of_write`: what a written file changes, and that it reads back.
-/
import RecordFilter.Files
import RecordFilter.Proofs.Results
import Mathlib.Tactic.SplitIfs

namespace RecordFilter

/-- Where a step leads from a location. -/
def Step.target (place : Location) : Step → Location
  | stay => place
  | up => place.tail
  | down name => name :: place

namespace Files

variable {files files' : Files}

/-! ## Walks -/

theorem expectDirectory_eq_ok_iff {place : Location} {u : Unit} :
    files.expectDirectory place = .ok u ↔ files.node? place = some .directory := by
  rw [expectDirectory]
  split <;> simp_all

theorem child_eq_ok_iff {directory place : Location} {name : Text} :
    files.child directory name = .ok place ↔
      files.node? directory = some .directory ∧ name.byteCount ≤ maxName ∧
        place = name :: directory := by
  rw [child, bind_unit_eq_ok_iff, expectDirectory_eq_ok_iff]
  refine and_congr_right fun _ => ?_
  split_ifs with hn
  · simp only [throw_bind_ne_ok, Nat.not_le.2 hn, false_and]
  · simp [Nat.le_of_not_lt hn, pure, Except.pure, eq_comm]

/-- Whether a step can be taken from a location. -/
def Passes (files : Files) (place : Location) (s : Step) : Prop :=
  files.node? place = some .directory ∧
    ∀ name, s = .down name → name.byteCount ≤ maxName ∧ (files.node? (name :: place)).isSome

theorem walk_cons_eq_ok_iff {origin place : Location} {s : Step} {ss : List Step} :
    files.walk origin (s :: ss) = .ok place ↔
      files.Passes origin s ∧ files.walk (s.target origin) ss = .ok place := by
  cases s with
  | stay | up =>
    rw [walk, bind_unit_eq_ok_iff, expectDirectory_eq_ok_iff]
    simp [Passes, Step.target]
  | down name =>
    rw [walk, bind_eq_ok_iff]
    simp only [child_eq_ok_iff, and_assoc, exists_and_left, exists_eq_left, Passes,
      Step.down.injEq, forall_eq', Step.target]
    refine and_congr_right fun _ => and_congr_right fun _ => ?_
    cases files.node? (name :: origin) with
    | none => simp [throw_bind_ne_ok]
    | some node => simp

theorem walk_append_eq_ok_iff {origin place : Location} {ss ss' : List Step} :
    files.walk origin (ss ++ ss') = .ok place ↔
      ∃ m, files.walk origin ss = .ok m ∧ files.walk m ss' = .ok place := by
  induction ss generalizing origin with
  | nil => simp [walk]
  | cons s ss ih =>
    rw [List.cons_append, walk_cons_eq_ok_iff, ih]
    simp only [walk_cons_eq_ok_iff]
    constructor
    · rintro ⟨hs, m, hm, hm'⟩
      exact ⟨m, ⟨hs, hm⟩, hm'⟩
    · rintro ⟨m, ⟨hs, hm⟩, hm'⟩
      exact ⟨hs, m, hm, hm'⟩

/-- The place that a walk leads to depends on the tree only in so far as there is one. -/
theorem eq_of_walk {origin place : Location} {ss : List Step}
    (h : files.walk origin ss = .ok place) : place = ss.foldl Step.target origin := by
  induction ss generalizing origin with
  | nil =>
    cases h
    rfl
  | cons s ss ih => exact ih (walk_cons_eq_ok_iff.1 h).2

/-- A walk that goes on, or that ends at a directory, starts from a directory. -/
theorem directory_of_walk {origin place : Location} {ss : List Step}
    (h : files.walk origin ss = .ok place)
    (hd : ss = [] → files.node? place = some .directory) :
    files.node? origin = some .directory := by
  cases ss with
  | nil =>
    cases h
    exact hd rfl
  | cons s ss => exact (walk_cons_eq_ok_iff.1 h).1.1

theorem locate_eq_ok_iff {path : Text} {place : Location} :
    files.locate path = .ok place ↔ checkPath path = .ok () ∧
      files.walk (files.start (.ofText path)) (Path.ofText path).steps = .ok place ∧
      ((Path.ofText path).closed → files.node? place = some .directory) := by
  rw [locate, bind_unit_eq_ok_iff, bind_eq_ok_iff]
  refine and_congr_right fun _ => ?_
  cases (Path.ofText path).closed with
  | false => simp [pure, Except.pure]
  | true =>
    simp only [if_true, bind_unit_eq_ok_iff, expectDirectory_eq_ok_iff, pure, Except.pure,
      Except.ok.injEq, forall_const]
    constructor
    · rintro ⟨m, hm, hd, rfl⟩
      exact ⟨hm, hd⟩
    · rintro ⟨hm, hd⟩
      exact ⟨place, hm, hd, rfl⟩

theorem has_eq_true_iff {path : Text} :
    files.has path ↔ ∃ place, files.locate path = .ok place := by
  rw [has]
  cases files.locate path <;> simp [Except.toBool]

theorem isDirectory_eq_true_iff {path : Text} : files.isDirectory path ↔
    checkPath path = .ok () ∧ ∃ place, files.walk (files.start (.ofText path))
      (Path.ofText path).steps = .ok place ∧ files.node? place = some .directory := by
  have h : files.isDirectory path ↔
      ∃ place, files.locate path = .ok place ∧ files.node? place = some .directory := by
    rw [isDirectory]
    cases files.locate path <;> simp
  rw [h]
  simp only [locate_eq_ok_iff]
  constructor
  · rintro ⟨place, ⟨hc, hw, -⟩, hd⟩
    exact ⟨hc, place, hw, hd⟩
  · rintro ⟨hc, place, hw, hd⟩
    exact ⟨place, ⟨hc, hw, fun _ => hd⟩, hd⟩

/-! ## What stays -/

/-- What was there is still there, and directories are still directories. -/
structure Keeps (files files' : Files) : Prop where
  working : files'.working = files.working
  directory : ∀ place, files.node? place = some .directory → files'.node? place = some .directory
  isSome : ∀ place, (files.node? place).isSome → (files'.node? place).isSome

theorem Keeps.start (h : Keeps files files') (p : Path) : files'.start p = files.start p := by
  rw [Files.start, Files.start, h.working]

theorem Keeps.passes (h : Keeps files files') {place : Location} {s : Step}
    (hs : files.Passes place s) : files'.Passes place s :=
  ⟨h.directory place hs.1, fun name hn => ⟨(hs.2 name hn).1, h.isSome _ (hs.2 name hn).2⟩⟩

theorem Keeps.walk (h : Keeps files files') {origin place : Location} {ss : List Step}
    (hw : files.walk origin ss = .ok place) : files'.walk origin ss = .ok place := by
  induction ss generalizing origin with
  | nil => exact hw
  | cons s ss ih =>
    rw [walk_cons_eq_ok_iff] at hw ⊢
    exact ⟨h.passes hw.1, ih hw.2⟩

theorem keeps_put {place : Location} {node : Node} (h : files.node? place ≠ some .directory)
    (hp : place ≠ []) : Keeps files (files.put place node) where
  working := rfl
  directory other hd := by
    rw [node?_put_of_ne, hd]
    rintro rfl
    exact h hd
  isSome other hs := by
    by_cases ho : other = place
    · rw [ho, node?_put_self hp]
      rfl
    · rwa [node?_put_of_ne ho]

/-- What is put in a directory is where the steps to the directory and down lead. -/
theorem walk_put {origin directory : Location} {steps : List Step} {name : Text} {node : Node}
    (hw : files.walk origin steps = .ok directory) (hd : files.node? directory = some .directory)
    (hlen : name.byteCount ≤ maxName) (hne : files.node? (name :: directory) ≠ some .directory) :
    (files.put (name :: directory) node).walk origin (steps ++ [.down name]) =
      .ok (name :: directory) := by
  have hk : Keeps files (files.put (name :: directory) node) := keeps_put hne (List.cons_ne_nil _ _)
  have hself : (files.put (name :: directory) node).node? (name :: directory) = some node :=
    node?_put_self (List.cons_ne_nil _ _)
  refine walk_append_eq_ok_iff.2 ⟨directory, hk.walk hw, walk_cons_eq_ok_iff.2 ⟨?_, rfl⟩⟩
  refine ⟨hk.directory _ hd, fun name' h => ?_⟩
  cases h
  exact ⟨hlen, by rw [hself]; rfl⟩

/-- Nothing has changed but that there are new directories. -/
structure Grows (files files' : Files) : Prop where
  working : files'.working = files.working
  node? : ∀ place, files'.node? place = files.node? place ∨
    files.node? place = none ∧ files'.node? place = some .directory

theorem Grows.refl (files : Files) : Grows files files := ⟨rfl, fun _ => Or.inl rfl⟩

theorem Grows.of_isSome (h : Grows files files') {place : Location}
    (hs : (files.node? place).isSome) : files'.node? place = files.node? place := by
  rcases h.node? place with he | ⟨hn, -⟩
  · exact he
  · rw [hn] at hs
    cases hs

theorem Grows.keeps (h : Grows files files') : Keeps files files' where
  working := h.working
  directory place hd := by rw [h.of_isSome (by rw [hd]; rfl), hd]
  isSome place hs := by rwa [h.of_isSome hs]

theorem Grows.put (h : Grows files files') {place : Location} (hn : files'.node? place = none)
    (hp : place ≠ []) : Grows files (files'.put place .directory) where
  working := h.working
  node? other := by
    by_cases ho : other = place
    · subst ho
      refine Or.inr ⟨?_, node?_put_self hp⟩
      rcases h.node? other with he | ⟨-, hd⟩
      · rw [← he, hn]
      · rw [hn] at hd
        cases hd
    · rw [node?_put_of_ne ho]
      exact h.node? other

/-! ## New directories -/

/-- What making a directory does. -/
theorem exists_of_makeDirectory {path : Text} (h : files.makeDirectory path = .ok files') :
    checkPath path = .ok () ∧ ∃ steps name directory,
      (Path.ofText path).steps = steps ++ [.down name] ∧
      files.walk (files.start (.ofText path)) steps = .ok directory ∧
      files.node? directory = some .directory ∧ name.byteCount ≤ maxName ∧
      files.node? (name :: directory) = none ∧
      files' = files.put (name :: directory) .directory := by
  rw [makeDirectory, bind_unit_eq_ok_iff, bind_eq_ok_iff] at h
  obtain ⟨hc, directory, hw, h⟩ := h
  refine ⟨hc, ?_⟩
  split at h
  · next name hl =>
    obtain ⟨place, hp, h⟩ := bind_eq_ok_iff.1 h
    obtain ⟨hd, hn, rfl⟩ := child_eq_ok_iff.1 hp
    obtain ⟨steps, hs⟩ := List.getLast?_eq_some_iff.1 hl
    rw [hs, List.dropLast_concat] at hw
    refine ⟨steps, name, directory, hs, hw, hd, hn, ?_⟩
    cases hnone : files.node? (name :: directory) with
    | none =>
      rw [hnone] at h
      cases h
      exact ⟨rfl, rfl⟩
    | some node =>
      rw [hnone] at h
      cases h
  · exact absurd (bind_eq_ok_iff.1 h) (by rintro ⟨u, -, h⟩; cases h)

/-- A directory that is there is not made. -/
theorem makeDirectory_of_isDirectory {path : Text} (h : files.isDirectory path) :
    files.makeDirectory path = .error .alreadyExists := by
  obtain ⟨hc, place, hw, hd⟩ := isDirectory_eq_true_iff.1 h
  rcases List.eq_nil_or_concat (Path.ofText path).steps with hs | ⟨steps, s, hs⟩
  · rw [hs] at hw
    have hstart : files.expectDirectory (files.start (.ofText path)) = .ok () :=
      expectDirectory_eq_ok_iff.2 (directory_of_walk hw fun _ => hd)
    simp [makeDirectory, hc, hs, walk, hstart, bind, Except.bind, throw, throwThe,
      MonadExceptOf.throw]
  · rw [List.concat_eq_append] at hs
    rw [hs] at hw
    obtain ⟨m, hm, hw⟩ := walk_append_eq_ok_iff.1 hw
    obtain ⟨⟨hdm, hn⟩, -⟩ := walk_cons_eq_ok_iff.1 hw
    cases s with
    | down name =>
      obtain ⟨hlen, hsome⟩ := hn name rfl
      simp [makeDirectory, hc, hs, hm, child_eq_ok_iff.2 ⟨hdm, hlen, rfl⟩, hsome, bind,
        Except.bind, throw, throwThe, MonadExceptOf.throw]
    | stay | up =>
      have he : files.expectDirectory m = .ok () := expectDirectory_eq_ok_iff.2 hdm
      simp [makeDirectory, hc, hs, hm, he, bind, Except.bind, throw, throwThe,
        MonadExceptOf.throw]

/-- A directory that is made is there. -/
theorem isDirectory_of_makeDirectory {path : Text} (h : files.makeDirectory path = .ok files') :
    files'.isDirectory path := by
  obtain ⟨hc, steps, name, directory, hs, hw, hd, hlen, hn, rfl⟩ := exists_of_makeDirectory h
  refine isDirectory_eq_true_iff.2
    ⟨hc, name :: directory, ?_, node?_put_self (List.cons_ne_nil _ _)⟩
  rw [hs]
  exact walk_put hw hd hlen (by rw [hn]; nofun)

/-! ## Written files -/

/-- **A written file** is the one that the path leads to from then on. -/
theorem exists_of_write {path t : Text} (h : files.write path t = .ok files') :
    ∃ place, files.node? place ≠ some .directory ∧
      files' = files.put place (.file (.text t)) ∧
      files'.node? place = some (.file (.text t)) ∧ files'.locate path = .ok place := by
  rw [write, bind_unit_eq_ok_iff] at h
  obtain ⟨hc, h⟩ := h
  dsimp only at h
  split at h
  · next name hl =>
    obtain ⟨steps, hs⟩ := List.getLast?_eq_some_iff.1 hl
    rw [hs, List.dropLast_concat, bind_eq_ok_iff] at h
    obtain ⟨directory, hw, h⟩ := h
    obtain ⟨-, h⟩ := bind_unit_eq_ok_iff.1 h
    split_ifs at h with hclosed
    · cases h
    obtain ⟨place, hp, h⟩ := bind_eq_ok_iff.1 h
    obtain ⟨hd, hlen, rfl⟩ := child_eq_ok_iff.1 hp
    split at h
    · cases h
    next hnode =>
    cases h
    refine ⟨name :: directory, hnode, rfl, node?_put_self (List.cons_ne_nil _ _),
      locate_eq_ok_iff.2 ⟨hc, ?_, fun h => absurd h hclosed⟩⟩
    rw [hs]
    exact walk_put hw hd hlen hnode
  · exact absurd (bind_eq_ok_iff.1 h) (by rintro ⟨u, -, h⟩; cases h)

theorem read_of_write {path t : Text} (h : files.write path t = .ok files') :
    files'.has path ∧ files'.read path = .ok t := by
  obtain ⟨place, -, -, hnode, hp⟩ := exists_of_write h
  refine ⟨has_eq_true_iff.2 ⟨place, hp⟩, ?_⟩
  rw [read, hp]
  simp only [bind, Except.bind, hnode]
  rfl

end Files

end RecordFilter
