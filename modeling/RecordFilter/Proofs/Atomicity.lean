/-
  Proofs.Atomicity — what a run writes.

  * `Files.file?`: what a file holds;
  * `Settings.store_cases`: writing the file of settings fails with nothing but new
    directories, or writes that file;
  * `Command.Answers`, `Command.Stores`: the two ways in which a command goes, and
    `Command.execute_cases`: every command goes one of them;
  * `Invocation.run_cases`: a run has no command, or its command fails or succeeds;
  * `run_atomic`: a run that fails answers nothing and leaves all files as they were, and
    no run changes any other file than that of the settings.
-/
import RecordFilter.Command.Run
import RecordFilter.Proofs.Directories

namespace RecordFilter

namespace Files

variable {files files' : Files}

/-- What the file at a location holds, if one stands there. -/
def file? (files : Files) (place : Location) : Option Contents :=
  match files.node? place with
  | some (.file contents) => some contents
  | _ => none

theorem Grows.file? (h : Grows files files') (place : Location) :
    files'.file? place = files.file? place := by
  rcases h.node? place with he | ⟨hn, hd⟩
  · rw [Files.file?, he, Files.file?]
  · rw [Files.file?, hd, Files.file?, hn]

theorem file?_put_of_ne {place other : Location} {node : Node} (h : other ≠ place) :
    (files.put place node).file? other = files.file? other := by
  rw [file?, node?_put_of_ne h, file?]

end Files

/-- **Writing the file of settings** makes the directories above it.  If that is all, it
    fails; otherwise the file is written. -/
theorem Settings.store_cases (files : Files) (p : Text) (text : Except Error Text)
    (failed : FileError → Error) :
    (∃ e, store files p text failed = ((files.makeParents p).1, .error e)) ∨
      ∃ t files', text = .ok t ∧ (files.makeParents p).1.write p t = .ok files' ∧
        store files p text failed = (files', .ok ()) := by
  rw [store]
  rcases files.makeParents p with ⟨g, e | u⟩
  · exact Or.inl ⟨_, rfl⟩
  cases text with
  | error e => exact Or.inl ⟨e, rfl⟩
  | ok t =>
    cases hw : g.write p t with
    | error e => exact Or.inl ⟨failed e, by simp only [hw]⟩
    | ok files' => exact Or.inr ⟨t, files', rfl, hw, by simp only [hw]⟩

namespace Command

/-- Whether a command writes the file of settings. -/
def writesSettings : Command → Bool
  | createSettings _ | changeSetting _ _ => true
  | _ => false

/-- A command that changes no file: it fails before it writes anything, or it succeeds. -/
def Answers (e : Effects) (r : EStateM.Result Failure Effects Unit) : Prop :=
  (∃ f, r = .error f e) ∨ ∃ output errors, r = .ok () { e with output, errors }

/-- A command that writes the file of settings with the given text: it fails with nothing
    but new directories, before it writes any answer, or it succeeds. -/
def Stores (e : Effects) (p : Text) (text : Except Settings.Error Text)
    (r : EStateM.Result Failure Effects Unit) : Prop :=
  (∃ f, r = .error f { e with files := (e.files.makeParents p).1 }) ∨
    ∃ t files output, text = .ok t ∧ (e.files.makeParents p).1.write p t = .ok files ∧
      r = .ok () { e with files, output }

section
variable {α : Type} {e : Effects}

/-- A result is had before anything is done. -/
theorem answers_ofExcept {x : Except Failure α} {k : α → Procedure Unit}
    (h : ∀ a, Answers e (k a e)) : Answers e ((ofExcept x >>= k) e) := by
  cases x with
  | error f => exact Or.inl ⟨f, rfl⟩
  | ok a => exact h a

theorem answers_files {k : Files → Procedure Unit} (h : Answers e (k e.files e)) :
    Answers e ((Procedure.files >>= k) e) := h

theorem answers_write (t : Text) : Answers e (Procedure.write t e) := Or.inr ⟨_, _, rfl⟩

/-- The answer is written after the file of settings. -/
theorem stores_change (p : Text) (text : Except Settings.Error Text)
    (failed : FileError → Settings.Error) (t : Text) :
    Stores e p text
      ((Procedure.change (Settings.store · p text failed) >>= fun _ => Procedure.write t) e) := by
  simp only [bind, EStateM.bind, Procedure.change]
  rcases Settings.store_cases e.files p text failed with ⟨cause, h⟩ | ⟨u, files, hu, hw, h⟩
  · rw [h]
    exact Or.inl ⟨_, rfl⟩
  · rw [h]
    exact Or.inr ⟨u, files, _, hu, hw, rfl⟩

end

theorem answers_showPredicate (context : Context) (query : Text) (e : Effects) :
    Answers e (showPredicate context query e) := by
  refine answers_ofExcept fun p => Or.inr ?_
  dsimp only [bind, EStateM.bind, Procedure.write]
  split_ifs <;> exact ⟨_, _, rfl⟩

theorem createFile_cases (context : Context) (host : Host) (force : Bool) (e : Effects) :
    (∃ f, createFile context host force e = .error f e) ∨
      ∃ p, Settings.path host = .ok p ∧
        Stores e p (.ok Settings.starterText) (createFile context host force e) := by
  rw [createFile]
  cases Settings.path host with
  | error cause => exact Or.inl ⟨_, rfl⟩
  | ok p =>
    rw [Procedure.ofSettings_ok_bind, Procedure.files_bind]
    by_cases h : e.files.has p && !force
    · rw [if_pos h]
      exact Or.inl ⟨_, rfl⟩
    · rw [if_neg h]
      exact Or.inr ⟨p, rfl, stores_change p (.ok Settings.starterText) .createFailed _⟩

/-- A setting that can be changed is saved with the others. -/
theorem saveSetting_of_change (context : Context) {host : Host} {key value p : Text}
    {e : Effects} {s s' : Settings} (hs : Settings.load host e.files = .ok s)
    (hc : s.change key value = .ok s') (hp : Settings.path host = .ok p) :
    Stores e p s'.text? (saveSetting context host key value e) := by
  rw [saveSetting, Procedure.files_bind, hs, Procedure.ofSettings_ok_bind, hc,
    Procedure.ofSettings_ok_bind, hp, Procedure.ofSettings_ok_bind]
  exact stores_change p s'.text? .writeFailed _

theorem saveSetting_cases (context : Context) (host : Host) (key value : Text) (e : Effects) :
    (∃ f, saveSetting context host key value e = .error f e) ∨
      ∃ s s' p, Settings.load host e.files = .ok s ∧ s.change key value = .ok s' ∧
        Settings.path host = .ok p ∧
        Stores e p s'.text? (saveSetting context host key value e) := by
  cases hs : Settings.load host e.files with
  | error c =>
    refine Or.inl ⟨.settings c, ?_⟩
    rw [saveSetting, Procedure.files_bind, hs, Procedure.ofSettings_error_bind]
  | ok s =>
    cases hc : s.change key value with
    | error c =>
      refine Or.inl ⟨.settings c, ?_⟩
      rw [saveSetting, Procedure.files_bind, hs, Procedure.ofSettings_ok_bind, hc,
        Procedure.ofSettings_error_bind]
    | ok s' =>
      cases hp : Settings.path host with
      | error c =>
        refine Or.inl ⟨.settings c, ?_⟩
        rw [saveSetting, Procedure.files_bind, hs, Procedure.ofSettings_ok_bind, hc,
          Procedure.ofSettings_ok_bind, hp, Procedure.ofSettings_error_bind]
      | ok p => exact Or.inr ⟨s, s', p, rfl, hc, rfl, saveSetting_of_change context hs hc hp⟩

/-- **What a command does**: it answers only, or it writes the file of settings. -/
theorem execute_cases (command : Command) (context : Context) (host : Host)
    (standardInput : Contents) (e : Effects) :
    Answers e (command.execute context host standardInput e) ∨
      command.writesSettings ∧ ∃ p text, Settings.path host = .ok p ∧
        Stores e p text (command.execute context host standardInput e) := by
  cases command with
  | validate query => exact Or.inl (answers_ofExcept fun _ => answers_write _)
  | blocks query => exact Or.inl (answers_ofExcept fun _ => answers_write _)
  | compile query => exact Or.inl (answers_showPredicate context query e)
  | render query => exact Or.inl (answers_ofExcept fun _ => answers_write _)
  | scan query input limit cursor all =>
    exact Or.inl (answers_ofExcept fun _ => answers_files (answers_ofExcept fun _ =>
      answers_write _))
  | showSettings =>
    exact Or.inl (answers_files (answers_ofExcept fun _ => answers_ofExcept fun _ =>
      answers_files (answers_write _)))
  | settingsPath => exact Or.inl (answers_ofExcept fun _ => answers_files (answers_write _))
  | completions shell => exact Or.inl (answers_write _)
  | createSettings force =>
    rcases createFile_cases context host force e with ⟨f, h⟩ | ⟨p, hp, h⟩
    · exact Or.inl (Or.inl ⟨f, h⟩)
    · exact Or.inr ⟨rfl, p, _, hp, h⟩
  | changeSetting key value =>
    rcases saveSetting_cases context host key value e with ⟨f, h⟩ | ⟨-, s', p, -, -, hp, h⟩
    · exact Or.inl (Or.inl ⟨f, h⟩)
    · exact Or.inr ⟨rfl, p, _, hp, h⟩

section
variable {command : Command} {context : Context} {host : Host} {standardInput : Contents}
  {e e' : Effects}

/-- A command that fails has answered nothing, and has made at most directories. -/
theorem execute_error {f : Failure}
    (h : command.execute context host standardInput e = .error f e') :
    e'.output = e.output ∧ ∀ place, e'.files.file? place = e.files.file? place := by
  rcases command.execute_cases context host standardInput e with
    (⟨f', hr⟩ | ⟨output, errors, hr⟩) | ⟨-, p, text, -, ⟨f', hr⟩ | ⟨t, g, output, -, -, hr⟩⟩
  · cases h.symm.trans hr
    exact ⟨rfl, fun _ => rfl⟩
  · cases h.symm.trans hr
  · cases h.symm.trans hr
    exact ⟨rfl, (Files.grows_makeParents e.files p).file?⟩
  · cases h.symm.trans hr

/-- A file that is not as it was before a command is that of the settings. -/
theorem locate_of_execute (h : command.execute context host standardInput e = .ok () e')
    {place : Location} (hne : e'.files.file? place ≠ e.files.file? place) :
    command.writesSettings ∧ ∃ p, Settings.path host = .ok p ∧
      e'.files.locate p = .ok place := by
  rcases command.execute_cases context host standardInput e with
    (⟨f', hr⟩ | ⟨output, errors, hr⟩) |
      ⟨hw, p, text, hp, ⟨f', hr⟩ | ⟨t, g, output, -, hwrite, hr⟩⟩
  · cases h.symm.trans hr
  · cases h.symm.trans hr
    exact absurd rfl hne
  · cases h.symm.trans hr
  · cases h.symm.trans hr
    refine ⟨hw, p, hp, ?_⟩
    obtain ⟨place', -, rfl, -, hl⟩ := Files.exists_of_write hwrite
    by_cases hplace : place = place'
    · rw [hplace, hl]
    · rw [Files.file?_put_of_ne hplace, (Files.grows_makeParents e.files p).file?] at hne
      exact absurd rfl hne

end

end Command

theorem Failure.status_ne_zero (f : Failure) : f.status ≠ 0 := by
  cases f with
  | query t e =>
    rw [status]
    split_ifs <;> decide
  | settings | file | notJson | notAnArray => exact Nat.succ_ne_zero _

namespace Invocation

/-- **What a run comes to**: it has no command to execute, or its command fails or
    succeeds, and all that was done shows. -/
theorem run_cases (i : Invocation) :
    (i.run.files = i.files ∧ (i.run.status ≠ 0 → i.run.output = [])) ∨
      ∃ manner command context, Command.ofArguments i.arguments = .ok (manner, command) ∧
        ((∃ e, command.execute context i.host i.standardInput (.start i.files) = .ok () e ∧
          i.run.status = 0 ∧ i.run.files = e.files) ∨
        ∃ f e, command.execute context i.host i.standardInput (.start i.files) = .error f e ∧
          i.run.status ≠ 0 ∧ i.run.output = e.output ∧ i.run.files = e.files) := by
  rw [run]
  rcases Command.ofArguments i.arguments with (_ | level | level) | ⟨manner, command⟩
  · exact Or.inl ⟨rfl, fun _ => rfl⟩
  · exact Or.inl ⟨rfl, fun h => absurd rfl h⟩
  · exact Or.inl ⟨rfl, fun h => absurd rfl h⟩
  dsimp only
  cases command.context manner i with
  | error f => exact Or.inl ⟨rfl, fun _ => rfl⟩
  | ok context =>
    refine Or.inr ⟨manner, command, context, rfl, ?_⟩
    dsimp only
    cases command.execute context i.host i.standardInput (.start i.files) with
    | ok u e => exact Or.inl ⟨e, rfl, rfl, rfl⟩
    | error f e => exact Or.inr ⟨f, e, rfl, f.status_ne_zero, rfl, rfl⟩

end Invocation

/-- **A run is all or nothing.**  A run that fails answers nothing, and all files are as
    they were.  The only file that a run makes or changes is that of the settings, and it
    does so only if its command is to write them and succeeds. -/
theorem run_atomic (i : Invocation) :
    (i.run.status ≠ 0 → i.run.output = [] ∧
      ∀ place, i.run.files.file? place = i.files.file? place) ∧
    ∀ place, i.run.files.file? place ≠ i.files.file? place →
      i.run.status = 0 ∧ ∃ manner command p,
        Command.ofArguments i.arguments = .ok (manner, command) ∧ command.writesSettings ∧
        Settings.path i.host = .ok p ∧ i.run.files.locate p = .ok place := by
  rcases i.run_cases with ⟨hf, ho⟩ | ⟨manner, command, context, hc, hr⟩
  · rw [hf]
    exact ⟨fun h => ⟨ho h, fun _ => rfl⟩, fun _ h => absurd rfl h⟩
  rcases hr with ⟨e, hx, hs, hf⟩ | ⟨f, e, hx, -, ho, hf⟩
  · rw [hf]
    refine ⟨fun h => absurd hs h, fun place hne => ⟨hs, ?_⟩⟩
    obtain ⟨hw, p, hp, hl⟩ := Command.locate_of_execute hx hne
    exact ⟨manner, command, p, hc, hw, hp, hl⟩
  · obtain ⟨hout, hsame⟩ := Command.execute_error hx
    rw [hf, ho]
    exact ⟨fun _ => ⟨hout, hsame⟩, fun place hne => absurd (hsame place) hne⟩

/-- A page size that the saved form cannot hold is refused after a directory is made for
    it; one that it can hold goes into the one new file. -/
theorem run_atomic_pageSize :
    let i (size : String) : Invocation :=
      ⟨["config", "set", "scan.page_size", size].map String.toList,
        .ofEnvironment [("HOME".toList, "/root".toList)], .text [], .empty ["root".toList]⟩
    let directory := ["pf".toList, ".config".toList, "root".toList]
    ((i "9223372036854775808").run.status = 5 ∧
      (i "9223372036854775808").run.files.node? directory = some .directory ∧
      ∀ place, (i "9223372036854775808").run.files.file? place =
        (i "9223372036854775808").files.file? place) ∧
    (i "20").run.files.file? ("config.toml".toList :: directory) ≠ none ∧
      (i "20").run.status = 0 := by
  intro i directory
  have hchanged : (i "20").run.files.file? ("config.toml".toList :: directory) ≠
      (i "20").files.file? ("config.toml".toList :: directory) := by decide +kernel
  have hfails : (i "9223372036854775808").run.status = 5 := by decide +kernel
  refine ⟨⟨hfails, by decide +kernel, ((run_atomic _).1 (by rw [hfails]; decide)).2⟩, ?_,
    ((run_atomic _).2 _ hchanged).1⟩
  decide +kernel

end RecordFilter
