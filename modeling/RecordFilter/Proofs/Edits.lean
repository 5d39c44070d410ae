/-
  Proofs.Edits — settings changed by command after command.

  The settings that are kept behave as a store of keyed values, if making the directories
  above their file does not by itself change what is read there.

  * `Edits`: runs of commands that change a setting, one after the other;
  * `Settings.after`: the settings with the last values that were set;
  * `Settings.Steady`: making the directories above the file changes nothing;
  * `Settings.Keeps.run`: what one command does to the settings;
  * `load_edits_iff`: what is kept after any commands.
-/
import RecordFilter.Proofs.Atomicity
import RecordFilter.Proofs.SavedForm

namespace RecordFilter

/-! ## Edits -/

/-- A command that was to change a setting. -/
structure Edit where
  key : Text
  value : Text
  /-- Whether the command succeeded. -/
  succeeded : Bool
  deriving DecidableEq, Repr

/-- Commands to change settings have been run one after the other, for one file of
    settings.  Command lines that name no command are passed over. -/
inductive Edits (host : Host) (files : Files) : List Edit → Files → Prop
  | nil : Edits host files [] files
  | concat {edits : List Edit} {i : Invocation} {manner : Manner} {key value : Text}
      (h : Edits host files edits i.files)
      (hp : Settings.path i.host = Settings.path host)
      (hc : Command.ofArguments i.arguments = .ok (manner, .changeSetting key value)) :
      Edits host files (edits ++ [⟨key, value, i.run.status = 0⟩]) i.run.files
  | refused {edits : List Edit} {i : Invocation} {stop : Stop}
      (h : Edits host files edits i.files)
      (hc : Command.ofArguments i.arguments = .error stop) :
      Edits host files edits i.run.files

/-- The last value that a key was given. -/
def lastValue? (edits : List Edit) (key : Text) : Option Text :=
  (edits.reverse.find? fun e => e.succeeded && e.key == key).map Edit.value

theorem lastValue?_concat (edits : List Edit) (e : Edit) (key : Text) :
    lastValue? (edits ++ [e]) key =
      if e.succeeded && e.key == key then some e.value else lastValue? edits key := by
  rw [lastValue?, List.reverse_append, List.reverse_singleton, List.singleton_append,
    List.find?_cons]
  split <;> simp_all [lastValue?]

theorem lastValue?_concat_self (edits : List Edit) (key value : Text) :
    lastValue? (edits ++ [⟨key, value, true⟩]) key = some value := by
  rw [lastValue?_concat, Bool.true_and, beq_self_eq_true, if_pos rfl]

theorem lastValue?_concat_of_ne (edits : List Edit) {key key' : Text} (h : key ≠ key')
    (value : Text) : lastValue? (edits ++ [⟨key, value, true⟩]) key' = lastValue? edits key' := by
  rw [lastValue?_concat, Bool.true_and, beq_eq_false_iff_ne.2 h, if_neg Bool.false_ne_true]

theorem lastValue?_concat_failed (edits : List Edit) (key value key' : Text) :
    lastValue? (edits ++ [⟨key, value, false⟩]) key' = lastValue? edits key' := by
  rw [lastValue?_concat, Bool.false_and, if_neg Bool.false_ne_true]

namespace Settings

/-- The settings in which each key has the last value that it was given, in the current
    version. -/
def after (s : Settings) (edits : List Edit) : Settings where
  version := currentVersion
  color := ((lastValue? edits "output.color".toList).bind boolean?).or s.color
  json := ((lastValue? edits "output.json".toList).bind boolean?).or s.json
  pageSize := ((lastValue? edits "scan.page_size".toList).bind Text.signedNumeral?).or s.pageSize

theorem after_nil {s : Settings} (h : s.version = currentVersion) : s.after [] = s := by
  rw [after, ← h]
  rfl

theorem after_failed (s : Settings) (edits : List Edit) (key value : Text) :
    s.after (edits ++ [⟨key, value, false⟩]) = s.after edits := by
  simp only [after, lastValue?_concat_failed]

theorem readBoolean_eq_ok_iff {value : Text} {b : Bool} :
    readBoolean value = .ok b ↔ boolean? value = some b := by
  rw [readBoolean]
  cases boolean? value <;> simp

theorem signedNumeral?_of_readPageSize {value : Text} {n : Nat} (h : readPageSize value = .ok n) :
    Text.signedNumeral? value = some n := by
  rw [readPageSize] at h
  split at h
  · next hv =>
    cases h
    exact hv
  · cases h

/-- What changing a setting does. -/
theorem change_cases {s s' : Settings} {key value : Text} (h : s.change key value = .ok s') :
    (key = "output.color".toList ∧ ∃ b, boolean? value = some b ∧ s' = { s with color := some b }) ∨
    (key = "output.json".toList ∧ ∃ b, boolean? value = some b ∧ s' = { s with json := some b }) ∨
    (key = "scan.page_size".toList ∧
      ∃ n, Text.signedNumeral? value = some n ∧ s' = { s with pageSize := some n }) := by
  rw [change] at h
  split_ifs at h with hcolor hjson hpage
  · obtain ⟨b, hb, rfl⟩ := map_eq_ok_iff.1 h
    exact Or.inl ⟨hcolor, b, readBoolean_eq_ok_iff.1 hb, rfl⟩
  · obtain ⟨b, hb, rfl⟩ := map_eq_ok_iff.1 h
    exact Or.inr (Or.inl ⟨hjson, b, readBoolean_eq_ok_iff.1 hb, rfl⟩)
  · obtain ⟨n, hn, rfl⟩ := map_eq_ok_iff.1 h
    exact Or.inr (Or.inr ⟨hpage, n, signedNumeral?_of_readPageSize hn, rfl⟩)

theorem after_succeeded {s s' : Settings} {edits : List Edit} {key value : Text}
    (h : (s.after edits).change key value = .ok s') :
    s.after (edits ++ [⟨key, value, true⟩]) = s' := by
  have hne : "output.color".toList ≠ "output.json".toList ∧
      "output.color".toList ≠ "scan.page_size".toList ∧
      "output.json".toList ≠ "scan.page_size".toList := by decide +kernel
  obtain ⟨hcj, hcp, hjp⟩ := hne
  rcases change_cases h with ⟨rfl, b, hb, rfl⟩ | ⟨rfl, b, hb, rfl⟩ | ⟨rfl, n, hn, rfl⟩
  · rw [after, lastValue?_concat_self, lastValue?_concat_of_ne edits hcj,
      lastValue?_concat_of_ne edits hcp, Option.bind_some, hb]
    rfl
  · rw [after, lastValue?_concat_self, lastValue?_concat_of_ne edits hcj.symm,
      lastValue?_concat_of_ne edits hjp, Option.bind_some, hb]
    rfl
  · rw [after, lastValue?_concat_self, lastValue?_concat_of_ne edits hcp.symm,
      lastValue?_concat_of_ne edits hjp.symm, Option.bind_some, hn]
    rfl

/-! ## What is kept -/

/-- Whether making the directories above the file of settings does not change what is read
    there. -/
def Steady (host : Host) (files : Files) : Prop :=
  ∀ p, path host = .ok p →
    load host (files.makeParents p).1 = load host files

theorem load_congr {host host' : Host}
    (h : path host = path host') (files : Files) :
    load host files = load host' files := by
  rw [load, load, h]

theorem load_eq {host : Host} {p : Text} (hp : path host = .ok p)
    (files : Files) : load host files =
      if files.has p then
        match files.read p with
        | .ok t => ofText t
        | .error e => .error (.unreadable e)
      else .ok unset := by
  rw [load, hp]
  simp only [bind, Except.bind]
  split_ifs <;> rfl

theorem version_of_load {host : Host} {files : Files} {s : Settings}
    (h : load host files = .ok s) : s.version = currentVersion := by
  obtain ⟨p, hp, -⟩ := bind_eq_ok_iff.1 h
  rw [load_eq hp] at h
  split_ifs at h
  · split at h
    · rw [ofText] at h
      split at h
      · cases h
      · split_ifs at h
        cases h
        rfl
    · cases h
  · cases h
    rfl

theorem eq_savedText_of_text? {s : Settings} {t : Text} (h : s.text? = .ok t) :
    t = s.savedText ∧ ∀ n ∈ s.pageSize, n ≤ Toml.maxInteger := by
  rw [text?] at h
  split at h
  · next n hn =>
    split_ifs at h with hlt
    cases h
    refine ⟨rfl, fun m hm => ?_⟩
    cases hn.symm.trans hm
    exact Nat.le_of_not_lt hlt
  · next hn =>
    cases h
    exact ⟨rfl, fun m hm => by cases hn.symm.trans hm⟩

/-- **Saved settings are kept**: they are read from the file written with them. -/
theorem load_of_write {host : Host} {p t : Text} {files files' : Files}
    {s : Settings} (hp : path host = .ok p) (hv : s.version = currentVersion)
    (ht : s.text? = .ok t) (hw : files.write p t = .ok files') :
    load host files' = .ok s := by
  obtain ⟨hhas, hread⟩ := Files.read_of_write hw
  obtain ⟨rfl, hn⟩ := eq_savedText_of_text? ht
  rw [load_eq hp, if_pos hhas, hread]
  exact ofText_savedText hv hn

theorem version_of_change {s s' : Settings} {key value : Text} (h : s.change key value = .ok s') :
    s'.version = s.version := by
  rcases change_cases h with ⟨-, b, -, rfl⟩ | ⟨-, b, -, rfl⟩ | ⟨-, n, -, rfl⟩ <;> rfl

end Settings

namespace Invocation

theorem run_changeSetting {i : Invocation} {manner : Manner} {key value : Text}
    (hc : Command.ofArguments i.arguments = .ok (manner, .changeSetting key value)) :
    ∃ context,
      (∀ f e, Command.saveSetting context i.host key value (.start i.files) = .error f e →
        i.run.status ≠ 0 ∧ i.run.files = e.files) ∧
      ∀ e, Command.saveSetting context i.host key value (.start i.files) = .ok () e →
        i.run.status = 0 ∧ i.run.files = e.files := by
  refine ⟨.of manner .unset i.host, ?_⟩
  have hx : Command.context (.changeSetting key value) manner i =
      .ok (.of manner .unset i.host) := rfl
  constructor
  · intro f e h
    simp only [run, hc, hx, Command.execute, h]
    exact ⟨f.status_ne_zero, rfl⟩
  · intro e h
    have hrun : i.run = ⟨0, e.output, e.errors, e.files⟩ := by
      simp only [run, hc, hx, Command.execute, h]
    rw [hrun]
    exact ⟨rfl, rfl⟩

theorem files_of_refused {i : Invocation} {stop : Stop}
    (hc : Command.ofArguments i.arguments = .error stop) : i.run.files = i.files := by
  rw [run, hc]
  cases stop <;> rfl

end Invocation

namespace Settings

/-- What is kept, and would still be kept if the directories above the file were made. -/
structure Keeps (host : Host) (files : Files) (s : Settings) : Prop where
  load : load host files = .ok s
  steady : Steady host files

theorem Keeps.makeParents {host : Host} {files : Files} {s : Settings} {p : Text}
    (h : Keeps host files s) (hp : path host = .ok p) :
    Keeps host (files.makeParents p).1 s := by
  refine ⟨(h.steady p hp).trans h.load, fun p' hp' => ?_⟩
  cases hp.symm.trans hp'
  rw [Files.makeParents_makeParents]

theorem steady_of_has {host : Host} {files : Files}
    (h : ∀ p, path host = .ok p → files.has p) : Steady host files := by
  intro p hp
  rw [Files.makeParents_of_has (h p hp)]

/-- **What one command does**: if it succeeds the setting is changed, and if it fails all
    settings are as they were. -/
theorem Keeps.run {host : Host} {i : Invocation} {s : Settings} {manner : Manner}
    {key value : Text} (h : Keeps host i.files s)
    (hp : path i.host = path host)
    (hc : Command.ofArguments i.arguments = .ok (manner, .changeSetting key value)) :
    (i.run.status ≠ 0 ∧ Keeps host i.run.files s) ∨
      ∃ s', i.run.status = 0 ∧ s.change key value = .ok s' ∧
        Keeps host i.run.files s' := by
  obtain ⟨context, herror, hok⟩ := Invocation.run_changeSetting hc
  rcases Command.saveSetting_cases context i.host key value (.start i.files) with
    ⟨f, hr⟩ | ⟨s₀, s', p, hl, hchange, hpath, hr⟩
  · obtain ⟨hstatus, hfiles⟩ := herror _ _ hr
    rw [hfiles]
    exact Or.inl ⟨hstatus, h⟩
  obtain rfl : s₀ = s := Except.ok.inj (hl.symm.trans ((load_congr hp i.files).trans h.load))
  rw [hp] at hpath
  rcases hr with ⟨f, hr⟩ | ⟨t, files', out, ht, hw, hr⟩
  · obtain ⟨hstatus, hfiles⟩ := herror _ _ hr
    rw [hfiles]
    exact Or.inl ⟨hstatus, h.makeParents hpath⟩
  · obtain ⟨hstatus, hfiles⟩ := hok _ hr
    rw [hfiles]
    have hv : s'.version = currentVersion :=
      (version_of_change hchange).trans (version_of_load h.load)
    refine Or.inr ⟨s', hstatus, hchange, load_of_write hpath hv ht hw, ?_⟩
    refine steady_of_has fun p' hp' => ?_
    cases hpath.symm.trans hp'
    exact (Files.read_of_write hw).1

end Settings

/-- What is kept after commands that change settings. -/
theorem Edits.keeps {host : Host} {files files' : Files} {edits : List Edit}
    {s : Settings} (he : Edits host files edits files')
    (h : Settings.Keeps host files s) :
    Settings.Keeps host files' (s.after edits) := by
  induction he with
  | nil => rwa [Settings.after_nil (Settings.version_of_load h.load)]
  | @concat edits i manner key value _ hp hc ih =>
    rcases ih.run hp hc with ⟨hs, hk⟩ | ⟨s', hs, hchange, hk⟩
    · rwa [decide_eq_false hs, Settings.after_failed]
    · rwa [decide_eq_true hs, Settings.after_succeeded hchange]
  | refused _ hc ih => rwa [Invocation.files_of_refused hc]

namespace Settings

variable {host : Host} {files : Files}

theorem steady_of_leavesNothingMissing (hf : files.WellFormed)
    (hl : ∀ p, path host = .ok p → files.LeavesNothingMissing p) :
    Steady host files := by
  intro p hp
  by_cases h : files.has p
  · rw [Files.makeParents_of_has h]
  · have h' : ¬ (files.makeParents p).1.has p := fun h' => h (Files.has_makeParents hf (hl p hp) h')
    rw [load_eq hp, load_eq hp, if_neg h, if_neg h']

/-- A command line that is to change a setting. -/
def setting (host : Host) (key value : String) (files : Files) : Invocation :=
  ⟨["config", "set", key, value].map String.toList, host, .text [], files⟩

/-- Whether a key and a value are taken from the command line as they are. -/
def IsSetting (key value : String) : Prop :=
  Command.ofArguments (["config", "set", key, value].map String.toList) =
    .ok (⟨false, false, false, false⟩, .changeSetting key.toList value.toList)

theorem edits_setting {edits : List Edit} {files' : Files}
    (h : Edits host files edits files') {key value : String} (hs : IsSetting key value) :
    Edits host files
      (edits ++ [⟨key.toList, value.toList, (setting host key value files').run.status = 0⟩])
      (setting host key value files').run.files :=
  .concat h rfl hs

theorem isSetting_unwritable : IsSetting "scan.page_size" "9223372036854775808" := rfl

theorem change_unwritable (s : Settings) :
    s.change "scan.page_size".toList "9223372036854775808".toList =
      .ok { s with pageSize := some 9223372036854775808 } := rfl

theorem text?_unwritable (s : Settings) :
    { s with pageSize := some 9223372036854775808 }.text? =
      .error (.unwritable 9223372036854775808) := by
  rw [text?]
  exact if_pos (by decide)

/-- A page size that the saved form cannot hold is refused once the directories above the
    file are made. -/
theorem run_unwritable {s : Settings} {p : Text} (hs : load host files = .ok s)
    (hp : path host = .ok p) :
    let i := setting host "scan.page_size" "9223372036854775808" files
    i.run.status ≠ 0 ∧ i.run.files = (files.makeParents p).1 := by
  intro i
  obtain ⟨context, herror, -⟩ := @Invocation.run_changeSetting i _ _ _ isSetting_unwritable
  have hstores := Command.saveSetting_of_change context (e := .start files) hs
    (change_unwritable s) hp
  rw [text?_unwritable] at hstores
  rcases hstores with ⟨f, hr⟩ | ⟨t, g, out, ht, -, -⟩
  · exact herror _ _ hr
  · cases ht

end Settings

/-- **The settings that are kept are a store of keyed values**: after any commands that
    change settings each key has the last value that it was given by one that succeeded,
    and the others are as they were.  This holds iff making the directories above the file
    does not change what is read there; so it does where the file is there, and on any tree
    of files on which no `..` of the path leaves a missing directory.  A tree holds regular
    files and directories only, and a file that cannot be written stays as it was. -/
theorem load_edits_iff (host : Host) (files : Files) {s : Settings}
    (hs : Settings.load host files = .ok s) :
    (Settings.Steady host files ↔ ∀ edits files', Edits host files edits files' →
      Settings.load host files' = .ok (s.after edits)) ∧
    ∀ p, Settings.path host = .ok p →
      files.has p ∨ files.WellFormed ∧ files.LeavesNothingMissing p →
      Settings.Steady host files := by
  refine ⟨⟨fun h edits files' he => (he.keeps ⟨hs, h⟩).load, fun h p hp => ?_⟩, ?_⟩
  · -- one command that fails behind the directories tells what is read then
    obtain ⟨hstatus, hfiles⟩ := Settings.run_unwritable hs hp
    have hload := h _ _ (Settings.edits_setting .nil Settings.isSetting_unwritable)
    rw [decide_eq_false hstatus, Settings.after_failed,
      Settings.after_nil (Settings.version_of_load hs), hfiles] at hload
    rw [hload, hs]
  · rintro p hp (hhas | ⟨hf, hl⟩)
    · exact Settings.steady_of_has fun p' hp' => by cases hp.symm.trans hp'; exact hhas
    · exact Settings.steady_of_leavesNothingMissing hf
        fun p' hp' => by cases hp.symm.trans hp'; exact hl

/-- One setting is changed, one cannot be and one is in the file already; and a failure
    before there is a file does not matter where the path has no `..`. -/
theorem load_mixed_edits :
    let host := Host.ofEnvironment [("PF_CONFIG".toList, "settings.toml".toList)]
    let files := (Files.empty ["home".toList]).put ["settings.toml".toList, "home".toList]
      (.file (.text "[output]\njson = true\n".toList))
    let first := Settings.setting host "scan.page_size" "20" files
    let second := Settings.setting host "scan.page_size" "0" first.run.files
    let third := Settings.setting host "output.color" "off" second.run.files
    Settings.load host third.run.files = .ok ⟨1, some false, some true, some 20⟩ ∧
      Settings.Steady (.ofEnvironment [("HOME".toList, "/root".toList)])
        (.empty ["root".toList]) := by
  intro host files first second third
  have hload : Settings.load host files = .ok ⟨1, none, some true, none⟩ := by
    decide +kernel
  constructor
  · have h₁ : Settings.IsSetting "scan.page_size" "20" := rfl
    have h₂ : Settings.IsSetting "scan.page_size" "0" := rfl
    have h₃ : Settings.IsSetting "output.color" "off" := rfl
    have hedits := Settings.edits_setting (Settings.edits_setting
      (Settings.edits_setting (@Edits.nil host files) h₁) h₂) h₃
    have hsteady := (load_edits_iff host files hload).2 _ rfl (Or.inl (by decide +kernel))
    rw [(load_edits_iff host files hload).1.1 hsteady _ _ hedits]
    decide +kernel
  · have hunset : Settings.load (.ofEnvironment [("HOME".toList, "/root".toList)])
        (.empty ["root".toList]) = .ok .unset := rfl
    refine (load_edits_iff _ _ hunset).2 _ rfl (Or.inr ⟨Files.wellFormed_empty _, ?_⟩)
    exact ⟨[], _, rfl, by decide +kernel, _, rfl⟩

/-- Where a `..` leaves a missing directory a command that fails changes where the path
    leads: to a directory, and the settings, unset before, cannot be read any more; or to
    a file, and its settings count. -/
theorem load_after_failed_edit :
    (let host := Host.ofEnvironment [("PF_CONFIG".toList, "x/..".toList)]
      let files := Files.empty ["home".toList]
      let edit := Settings.setting host "output.json" "true" files
      Settings.load host files = .ok .unset ∧
        Edits host files [⟨"output.json".toList, "true".toList, false⟩] edit.run.files ∧
        Settings.load host edit.run.files = .error (.unreadable .isADirectory)) ∧
    let host := Host.ofEnvironment [("PF_CONFIG".toList, "x/../settings.toml".toList)]
    let files := (Files.empty ["home".toList]).put ["settings.toml".toList, "home".toList]
      (.file (.text "[output]\njson = true\n".toList))
    let edit := Settings.setting host "scan.page_size" "9223372036854775808" files
    Settings.load host files = .ok .unset ∧
      Edits host files [⟨"scan.page_size".toList, "9223372036854775808".toList, false⟩]
        edit.run.files ∧
      Settings.load host edit.run.files = .ok ⟨1, none, some true, none⟩ := by
  constructor
  · intro host files edit
    have hset : Settings.IsSetting "output.json" "true" := rfl
    have hedits := Settings.edits_setting (@Edits.nil host files) hset
    have hfails : edit.run.status = 5 := rfl
    rw [hfails] at hedits
    exact ⟨rfl, hedits, rfl⟩
  · intro host files edit
    have hload : Settings.load host files = .ok .unset := rfl
    have hedits := Settings.edits_setting (@Edits.nil host files) Settings.isSetting_unwritable
    obtain ⟨hfails, hfiles⟩ := Settings.run_unwritable hload rfl
    rw [decide_eq_false hfails] at hedits
    refine ⟨hload, hedits, ?_⟩
    rw [hfiles]
    decide +kernel

end RecordFilter
