/-
  Proofs.References — queries with references that do not resolve.

  * `Unresolved`: a reference is the first thing wrong with a query, and
    `compile_eq_unresolved_iff`: such queries are refused for it;
  * `Unresolved.digitBehindGroup`: they have a digit behind a group;
  * `Invocation.status_eq_iff`: the runs that end with the status of an internal
    defect;
  * `internal_defect_iff`: all of this together.
-/
import RecordFilter.Command.Run
import RecordFilter.Proofs.Grammar
import RecordFilter.Proofs.Results

namespace RecordFilter

namespace Query

/-! ## Compiling -/

/-- Reference `j` in block `b` is the first thing wrong with the blocks of a query:
    what stands before it is sound, the comparisons so far, with the rest of the
    block, are not too many, and block `j` is not an earlier one or was referred
    to before. -/
def Unresolved (q : Text) (b j : Nat) : Prop :=
  ∃ blocks, resolveBlocks q = .ok blocks ∧ ∃ before os₁ os₂ after,
    operandsOf blocks = before ++ (os₁ ++ .reference j :: os₂) :: after ∧ b = before.length ∧
      Sound 0 [] (before ++ [os₁]) ∧
      comparisonTotal (before ++ [os₁ ++ .reference j :: os₂]) ≤ maxComparisons ∧
      (j < b → j ∈ (before ++ [os₁]).flatten.flatMap Operand.references)

theorem Error.isUserError_eq_false_iff {e : Error} :
    e.isUserError = false ↔ ∃ b j, e = .unresolvedReference b j := by
  cases e <;> simp [isUserError]

theorem isUserError_of_validate {q : Text} {e : Error} (h : validate q = .error e) :
    e.isUserError := by
  unfold validate at h
  split at h <;> cases h
  rfl

/-- Nothing but building finds an unresolved reference. -/
theorem isUserError_of_resolveBlocks {q : Text} {e : Error} (h : resolveBlocks q = .error e) :
    e.isUserError := by
  rcases error_of_resolveBlocks h with rfl | ⟨c, p, rfl⟩ | ⟨p, rfl⟩ <;> rfl

theorem compile_eq_unresolved_iff {q : Text} {b j : Nat} :
    compile q = .error (.unresolvedReference b j) ↔ Unresolved q b j := by
  rw [compile, Unresolved]
  cases hr : resolveBlocks q with
  | error e =>
    constructor
    · intro h
      cases h
      cases isUserError_of_resolveBlocks hr
    · rintro ⟨blocks, h, -⟩
      cases h
  | ok blocks =>
    obtain ⟨-, -, -, rfl⟩ := resolveBlocks_eq_ok_iff.1 hr
    have hf := @faultOf_eq_unresolved_iff 0 b j [] 0 (operandsOf (nestOf q).blocks) List.nodup_nil
      (Nat.zero_le _)
    simp only [Nat.zero_add, List.nil_append] at hf
    simp only [Except.ok.injEq, exists_eq_left']
    exact (build_eq_error_iff (nestOf q).blocks_ne_nil).trans hf

/-! ## Digits behind groups -/

/-- Without digits behind groups the operand of a piece refers to its group. -/
theorem kids_of_noDigitBehindGroup {q : Text} (ha : ∀ c ∈ q, isAllowed c) (hb : Balanced q)
    (hd : NoDigitBehindGroup q) {s : Nest Nat} (hs : s ∈ (nestOf q).layers.flatMap Nest.pieces)
    {j : Nat} (ho : s.operand = .reference j) : s.kids = [j] := by
  obtain ⟨m, hm, hsm⟩ := List.mem_flatMap.1 hs
  have hclean := ((numbered_nestOf q).clean_of_mem_layers (hb.clean_nestOf ha) hm).of_mem_pieces hsm
  obtain ⟨i, k, d, rfl, hj⟩ := Nest.eq_of_operand_reference hclean.sign_notMem ho
  have hinfix : (Nest.group i k (Nest.ofText d)).toMarks <:+: (nestOf q).toMarks :=
    (Nest.toMarks_infix_of_mem_pieces hsm).trans
      ((numbered_nestOf q).toMarks_infix_of_mem_layers hm)
  have hpiece := (hb.noDigitBehindGroup_nestOf hd).of_within hinfix
  have hnil : d = [] := by
    cases d with
    | nil => rfl
    | cons x d =>
      have hx : x.isDigit = false := hpiece.isDigit_eq_false
      have hx' := (Text.numeral?_eq_some_iff.1 hj).2.1 x (by simp)
      rw [hx] at hx'
      cases hx'
  subst hnil
  have hi := (Text.numeral?_eq_some_iff.1 hj).2.2.2
  rw [List.append_nil, Text.value_ofNat] at hi
  simp [Nest.kids, hi]

/-- **An unresolved reference takes a digit behind a group.**  A reference that has
    kept its number is to an earlier block, and no other one is to the same. -/
theorem Unresolved.digitBehindGroup {q : Text} {b j : Nat} (h : Unresolved q b j) :
    ¬ NoDigitBehindGroup q := by
  intro hd
  obtain ⟨blocks, hr, before, os₁, os₂, after, hos, rfl, -, -, hj⟩ := h
  obtain ⟨-, ha, hb, rfl⟩ := resolveBlocks_eq_ok_iff.1 hr
  clear hr
  have hn := numbered_nestOf q
  have hkids : ∀ s ∈ (nestOf q).layers.flatMap Nest.pieces, ∀ i, s.operand = .reference i →
      s.kids = [i] := fun s hs i => kids_of_noDigitBehindGroup ha hb hd hs
  obtain ⟨m, s, ss, ss', hm, hs, hso, hss, hbefore⟩ := Nest.exists_piece hos
  have hsj : s.kids = [j] := hkids s (by simp [hss]) j hso
  have hlt : j < before.length :=
    hn.lt_of_mem_kids hm (Nest.mem_kids_of_mem_pieces hs (by simp [hsj]))
  obtain ⟨o, ho, hjo⟩ := List.mem_flatMap.1 (hj hlt)
  rw [← hbefore] at ho
  obtain ⟨r, hr, rfl⟩ := List.mem_map.1 ho
  have hrj : j ∈ r.kids := by
    rw [hkids r (by simp [hss, hr]) j (Operand.eq_of_mem_references hjo)]
    exact List.mem_singleton_self j
  -- the pieces `r` and `s` have the same group, but are different ones
  have hnodup := hn.nodup_kids_pieces
  rw [hss, List.flatMap_append, List.flatMap_cons, hsj] at hnodup
  exact (List.nodup_append'.1 hnodup).2.2 (List.mem_flatMap_of_mem hr hrj) (by simp)

end Query

/-! ## Runs -/

/-- The query that a command compiles, if it compiles one. -/
def Command.compiled? : Command → Option Text
  | compile query | render query | scan query _ _ _ _ => some query
  | _ => none

theorem Failure.status_eq_iff {f : Failure} :
    f.status = 70 ↔ ∃ q b j, f = .query q (.unresolvedReference b j) := by
  cases f with
  | query q e => cases e <;> simp [status, Query.Error.isUserError]
  | settings | file | notJson | notAnArray => simp [status]

namespace Command

/-- A command that compiles a query fails as the query does. -/
theorem execute_of_compiled {command : Command} {q : Text} (hq : command.compiled? = some q)
    {c : Query.Error} (hc : Query.compile q = .error c) (context : Context) (host : Host)
    (standardInput : Contents) (e : Effects) :
    command.execute context host standardInput e = .error (.query q c) e := by
  cases command <;> simp only [compiled?, reduceCtorEq, Option.some.injEq] at hq
  all_goals
    subst hq
    simp only [execute, showPredicate, showExpression, scanRecords, hc,
      Procedure.ofQuery_error_bind]

theorem status_readRecords {files : Files} {input : Contents} {path : Text} {f : Failure}
    (h : readRecords files input path = .error f) : f.status ≠ 70 := by
  rcases eq_error_of_bind h with h | ⟨t, -, h⟩
  · cases hr : (if Path.isStandardInput path then input.text? else files.read path) with
    | error e =>
      rw [hr] at h
      cases h
      simp [Failure.status]
    | ok t =>
      rw [hr] at h
      cases h
  · unfold recordsOf at h
    split at h <;> cases h <;> simp [Failure.status]

section
variable {α : Type} {e e' : Effects} {q' : Text} {b j : Nat}

/-- Steps behind a query fail with an unresolved reference only if the query does. -/
theorem eq_unresolved_of_ofQuery {q : Text} {r : Except Query.Error α} {k : α → Procedure Unit}
    (h : (Procedure.ofQuery q r >>= k) e = .error (.query q' (.unresolvedReference b j)) e')
    (hk : ∀ a, k a e ≠ .error (.query q' (.unresolvedReference b j)) e') :
    r = .error (.unresolvedReference b j) := by
  cases r with
  | error c =>
    rw [Procedure.ofQuery_error_bind] at h
    cases h
    rfl
  | ok a => exact absurd h (hk a)

theorem ofSettings_bind_ne {r : Except Settings.Error α} {k : α → Procedure Unit}
    (hk : ∀ a, k a e ≠ .error (.query q' (.unresolvedReference b j)) e') :
    (Procedure.ofSettings r >>= k) e ≠ .error (.query q' (.unresolvedReference b j)) e' := by
  cases r with
  | error c => simp
  | ok a => exact hk a

theorem change_bind_write_ne {step : Files → Files × Except Settings.Error Unit} {t : Text} :
    (Procedure.change step >>= fun _ => Procedure.write t) e ≠
      .error (.query q' (.unresolvedReference b j)) e' := by
  intro h
  rcases Procedure.eq_error_of_bind h with h | ⟨-, e₁, -, h⟩
  · rw [Procedure.change] at h
    split at h <;> cases h
  · exact Procedure.write_ne_error _ h

end

/-- A command fails with an unresolved reference only where it compiles one. -/
theorem compile_of_execute {command : Command} {context : Context} {host : Host}
    {standardInput : Contents} {e e' : Effects} {q' : Text} {b j : Nat}
    (h : command.execute context host standardInput e =
      .error (.query q' (.unresolvedReference b j)) e') :
    ∃ q, command.compiled? = some q ∧ Query.compile q = .error (.unresolvedReference b j) := by
  cases command with
  | validate q =>
    have := eq_unresolved_of_ofQuery h fun _ => Procedure.write_ne_error _
    cases Query.isUserError_of_validate this
  | blocks q =>
    have := eq_unresolved_of_ofQuery h fun _ => Procedure.write_ne_error _
    cases Query.isUserError_of_resolveBlocks this
  | compile q =>
    refine ⟨q, rfl, eq_unresolved_of_ofQuery h fun p hp => ?_⟩
    rcases Procedure.eq_error_of_bind hp with hp | ⟨-, e₁, -, hp⟩
    · cases hp
    · split_ifs at hp <;> cases hp
  | render q => exact ⟨q, rfl, eq_unresolved_of_ofQuery h fun _ => Procedure.write_ne_error _⟩
  | scan q input limit cursor all =>
    refine ⟨q, rfl, eq_unresolved_of_ofQuery h fun p hp => ?_⟩
    rw [Procedure.files_bind] at hp
    rcases Procedure.eq_error_of_bind hp with hp | ⟨records, e₁, -, hp⟩
    · exact status_readRecords (Procedure.eq_of_ofExcept_error hp).1 rfl
    · exact absurd hp (Procedure.write_ne_error _)
  | showSettings =>
    exact absurd h (ofSettings_bind_ne fun s => ofSettings_bind_ne fun p =>
      Procedure.write_ne_error _)
  | createSettings force =>
    refine absurd h (ofSettings_bind_ne fun p => ?_)
    rw [Procedure.files_bind]
    split_ifs
    · intro hp
      cases hp
    · exact change_bind_write_ne
  | changeSetting key value =>
    exact absurd h (ofSettings_bind_ne fun s => ofSettings_bind_ne fun s' =>
      ofSettings_bind_ne fun p => change_bind_write_ne)
  | settingsPath => exact absurd h (ofSettings_bind_ne fun p => Procedure.write_ne_error _)
  | completions shell => exact absurd h (Procedure.write_ne_error _)

end Command

namespace Invocation

theorem status_of_context {command : Command} {manner : Manner} {i : Invocation} {f : Failure}
    (h : command.context manner i = .error f) : f.status ≠ 70 := by
  simp only [Command.context] at h
  split_ifs at h
  · cases hs : Settings.load i.host i.files with
    | error c =>
      rw [hs] at h
      cases h
      simp [Failure.status]
    | ok s =>
      rw [hs] at h
      cases h
  · cases h

/-- The run of a command that compiles query `q`. -/
def Compiles (i : Invocation) (q : Text) : Prop :=
  ∃ manner command context, Command.ofArguments i.arguments = .ok (manner, command) ∧
    command.context manner i = .ok context ∧ command.compiled? = some q

/-- **The runs that end with the status of an internal defect** are those of
    commands that compile a query with an unresolved reference. -/
theorem status_eq_iff (i : Invocation) :
    i.run.status = 70 ↔ ∃ q b j, i.Compiles q ∧ Query.Unresolved q b j := by
  constructor
  · intro h
    unfold run at h
    split at h
    · cases h
    · cases h
    · cases h
    next manner command hc =>
    split at h
    · next f hf => exact absurd h (status_of_context hf)
    next context hx =>
    split at h
    · cases h
    next f e hf =>
    obtain ⟨q', b, j, rfl⟩ := Failure.status_eq_iff.1 h
    obtain ⟨q, hq, he⟩ := Command.compile_of_execute hf
    exact ⟨q, b, j, ⟨manner, command, context, hc, hx, hq⟩, Query.compile_eq_unresolved_iff.1 he⟩
  · rintro ⟨q, b, j, ⟨manner, command, context, hc, hx, hq⟩, hu⟩
    have he := Query.compile_eq_unresolved_iff.2 hu
    simp only [run, hc, hx, Command.execute_of_compiled hq he]
    rfl

end Invocation

theorem Query.isUserError_iff {q : Text} :
    (∀ e, compile q = .error e → e.isUserError) ↔ ∀ b j, ¬ Unresolved q b j := by
  constructor
  · intro h b j hu
    cases h _ (compile_eq_unresolved_iff.2 hu)
  · intro h e he
    by_contra hn
    obtain ⟨b, j, rfl⟩ := Error.isUserError_eq_false_iff.1 (Bool.eq_false_iff.2 hn)
    exact h b j (compile_eq_unresolved_iff.1 he)

/-- **The error of an internal defect is that of an unresolved reference**: all that
    a query is refused for is the user's, and no run ends with the status of a defect,
    iff no reference is unresolved, as where no digit is behind a group. -/
theorem internal_defect_iff (q : Text) (i : Invocation) :
    (∀ b j, Query.compile q = .error (.unresolvedReference b j) ↔ Query.Unresolved q b j) ∧
      ((∀ e, Query.compile q = .error e → e.isUserError) ↔ ∀ b j, ¬ Query.Unresolved q b j) ∧
      (Query.NoDigitBehindGroup q → ∀ b j, ¬ Query.Unresolved q b j) ∧
      (i.run.status ≠ 70 ↔ ∀ q', i.Compiles q' → ∀ b j, ¬ Query.Unresolved q' b j) := by
  refine ⟨fun b j => Query.compile_eq_unresolved_iff, Query.isUserError_iff,
    fun hd b j hu => hu.digitBehindGroup hd, ?_⟩
  rw [Ne, Invocation.status_eq_iff]
  constructor
  · intro h q' hq b j hu
    exact h ⟨q', b, j, hq, hu⟩
  · rintro h ⟨q', b, j, hq, hu⟩
    exact h q' hq b j hu

theorem unresolved_digit_behind_group :
    Query.Unresolved "(a~)5".toList 1 5 ∧
      ∀ b j, ¬ Query.Unresolved "(a~)AND(b==\")0\")".toList b j := by
  have h (q : Text) := internal_defect_iff q ⟨[], .ofEnvironment [], .text [], .empty []⟩
  constructor
  · exact ((h _).1 1 5).1 rfl
  · exact (h _).2.2.1 (by decide +kernel)

/-- A digit behind the only group makes its reference one to a block that there is
    not. -/
theorem compile_digit_behind_group :
    Query.compile "(a~)5".toList = .error (.unresolvedReference 1 5) ∧
      (Invocation.run ⟨["compile".toList, "(a~)5".toList],
        .ofEnvironment [("HOME".toList, "/root".toList)], .text [], .empty []⟩).status = 70 := by
  constructor
  · rfl
  · rfl

end RecordFilter
