/-
  Proofs.Balance — parentheses without a partner.

  What is open at a place of a text is told by counting the parentheses outside quotes
  before it.  A scan keeps the places of the open parentheses on a stack, and from them
  knows the parenthesis at fault.

  * `depth`: how many more opening than closing parentheses stand before a place;
  * `Paired`, `Closes`: parentheses that are paired between two places, and the
    parenthesis that closes another;
  * `Scanned`: what a scan knows at a place, with one lemma for each mark it may read;
  * `unbalanced?_finds`: the scan from a place on;
  * `extract_eq_error_iff`: block extraction fails iff the parentheses are not paired,
    and then names the parenthesis at fault.
-/
import RecordFilter.Query.Block
import RecordFilter.Proofs.Places

namespace RecordFilter

namespace Query

/-! ## Counting parentheses -/

/-- The number of times that the character stands outside quotes before a place. -/
def countBefore (x : Char) (t : Text) (i : Nat) : Nat := (List.range i).countP (StandsAt x t)

/-- How many more opening than closing parentheses stand before a place. -/
def depth (t : Text) (i : Nat) : Int := countBefore '(' t i - countBefore ')' t i

/-- The parentheses between two places are paired: all that are opened there are closed
    there, and no others. -/
def Paired (t : Text) (i j : Nat) : Prop :=
  depth t j = depth t i ∧ ∀ k, i ≤ k → k ≤ j → depth t i ≤ depth t k

/-- The parenthesis at place `c` closes the one at place `p`. -/
def Closes (t : Text) (p c : Nat) : Prop :=
  StandsAt '(' t p ∧ StandsAt ')' t c ∧ p < c ∧ Paired t (p + 1) c

/-- A closing parenthesis up to which there are more closing than opening ones. -/
def Overcloses (t : Text) (p : Nat) : Prop := StandsAt ')' t p ∧ depth t (p + 1) < 0

/-- An opening parenthesis that none closes. -/
def NeverClosed (t : Text) (p : Nat) : Prop := StandsAt '(' t p ∧ ∀ c, ¬ Closes t p c

section
variable {t : Text} {i : Nat}

@[simp] theorem depth_zero : depth t 0 = 0 := rfl

theorem depth_succ : depth t (i + 1) = depth t i +
    (if StandsAt '(' t i then 1 else 0) - (if StandsAt ')' t i then 1 else 0) := by
  simp only [depth, countBefore, List.range_succ, List.countP_append, List.countP_singleton,
    decide_eq_true_eq]
  split_ifs <;> push_cast <;> omega

theorem not_standsAt_of_standsAt {x y : Char} (h : StandsAt x t i) (hne : x ≠ y) :
    ¬ StandsAt y t i := fun h' => hne (Option.some.inj (h.1.symm.trans h'.1))

theorem depth_succ_of_opening (h : StandsAt '(' t i) : depth t (i + 1) = depth t i + 1 := by
  rw [depth_succ, if_pos h, if_neg (not_standsAt_of_standsAt h (by decide)), sub_zero]

theorem depth_succ_of_closing (h : StandsAt ')' t i) : depth t (i + 1) = depth t i - 1 := by
  rw [depth_succ, if_pos h, if_neg (not_standsAt_of_standsAt h (by decide)), add_zero]

theorem depth_succ_of_other (h₁ : ¬ StandsAt '(' t i) (h₂ : ¬ StandsAt ')' t i) :
    depth t (i + 1) = depth t i := by
  rw [depth_succ, if_neg h₁, if_neg h₂, add_zero, sub_zero]

end

/-! ## The stack of a scan -/

/-- The opening parenthesis at place `p` is open at place `i`. -/
def OpenAt (t : Text) (i p : Nat) : Prop :=
  StandsAt '(' t p ∧ p < i ∧ ∀ c < i, ¬ Closes t p c

/-- What a scan knows that has come to place `i`: there never were more closing than
    opening parentheses, and `pending` holds the open ones, the innermost first. -/
structure Scanned (t : Text) (i : Nat) (pending : List Nat) : Prop where
  nonneg : ∀ j ≤ i, 0 ≤ depth t j
  depth_eq : depth t i = pending.length
  /-- The depth at an open parenthesis is the number of those open around it. -/
  level : ∀ p ps, p :: ps <:+ pending → depth t p = ps.length
  above : ∀ p ∈ pending, ∀ j, p < j → j ≤ i → depth t p < depth t j
  mem_iff : ∀ p, p ∈ pending ↔ OpenAt t i p
  sorted : pending.Pairwise (· > ·)

theorem scanned_zero (t : Text) : Scanned t 0 [] where
  nonneg j hj := by simp [Nat.le_zero.1 hj]
  depth_eq := depth_zero
  level p ps h := by simp at h
  above := by simp
  mem_iff p := by simp [OpenAt]
  sorted := .nil

namespace Scanned

variable {t : Text} {i : Nat} {pending : List Nat}

theorem lt_of_mem (h : Scanned t i pending) {p : Nat} (hp : p ∈ pending) : p < i :=
  ((h.mem_iff p).1 hp).2.1

/-- The depth at a parenthesis on the stack is less than the height of the stack. -/
theorem depth_lt_of_mem (h : ∀ p ps, p :: ps <:+ pending → depth t p = ps.length) {p : Nat}
    (hp : p ∈ pending) : depth t p < pending.length := by
  obtain ⟨qs, ps, rfl⟩ := List.append_of_mem hp
  rw [h p ps (List.suffix_append _ _)]
  simp only [List.length_append, List.length_cons]
  push_cast
  omega

theorem nonneg_succ (h : Scanned t i pending) (hdepth : 0 ≤ depth t (i + 1)) :
    ∀ j ≤ i + 1, 0 ≤ depth t j := by
  intro j hj
  rcases Nat.lt_or_eq_of_le hj with hj | rfl
  · exact h.nonneg j (by omega)
  · exact hdepth

theorem above_succ (h : Scanned t i pending) {p : Nat} (hp : p ∈ pending)
    (hdepth : depth t p < depth t (i + 1)) :
    ∀ j, p < j → j ≤ i + 1 → depth t p < depth t j := by
  intro j hpj hj
  rcases Nat.lt_or_eq_of_le hj with hj | rfl
  · exact h.above p hp j hpj (by omega)
  · exact hdepth

/-- What is open stays open if the next mark closes nothing. -/
theorem openAt_succ_iff (hi : ¬ StandsAt ')' t i) (p : Nat) :
    OpenAt t (i + 1) p ↔ p = i ∧ StandsAt '(' t i ∨ OpenAt t i p := by
  constructor
  · rintro ⟨hp, hlt, hc⟩
    rcases Nat.lt_succ_iff_lt_or_eq.1 hlt with hlt | rfl
    · exact Or.inr ⟨hp, hlt, fun c hlt => hc c (by omega)⟩
    · exact Or.inl ⟨rfl, hp⟩
  · rintro (⟨rfl, hp⟩ | ⟨hp, hlt, hc⟩)
    · exact ⟨hp, by omega, fun c hlt hcloses => absurd hcloses.2.2.1 (by omega)⟩
    · refine ⟨hp, by omega, fun c hlt hcloses => ?_⟩
      rcases Nat.lt_succ_iff_lt_or_eq.1 hlt with hlt | rfl
      · exact hc c hlt hcloses
      · exact hi hcloses.2.1

/-- A mark that is no parenthesis changes nothing. -/
theorem char (h : Scanned t i pending) (h₁ : ¬ StandsAt '(' t i) (h₂ : ¬ StandsAt ')' t i) :
    Scanned t (i + 1) pending := by
  have hdepth := depth_succ_of_other h₁ h₂
  refine ⟨h.nonneg_succ ?_, hdepth.trans h.depth_eq, h.level, fun p hp => h.above_succ hp ?_,
    fun p => ?_, h.sorted⟩
  · rw [hdepth]
    exact h.nonneg i le_rfl
  · rw [hdepth]
    exact h.above p hp i (h.lt_of_mem hp) le_rfl
  · rw [openAt_succ_iff h₂, h.mem_iff]
    simp [h₁]

/-- An opening parenthesis is the innermost one that is open. -/
theorem opening (h : Scanned t i pending) (hi : StandsAt '(' t i) :
    Scanned t (i + 1) (i :: pending) := by
  have hdepth := depth_succ_of_opening hi
  have hnonneg := h.nonneg i le_rfl
  refine ⟨h.nonneg_succ (by omega), ?_, fun p ps hps => ?_, fun p hp => ?_, fun p => ?_, ?_⟩
  · rw [hdepth, h.depth_eq]
    simp
  · rcases List.suffix_cons_iff.1 hps with heq | hps
    · cases heq
      exact h.depth_eq
    · exact h.level p ps hps
  · rcases List.mem_cons.1 hp with rfl | hp
    · intro j hpj hj
      obtain rfl : j = p + 1 := by omega
      omega
    · have := h.above p hp i (h.lt_of_mem hp) le_rfl
      exact h.above_succ hp (by omega)
  · rw [openAt_succ_iff (not_standsAt_of_standsAt hi (by decide)), List.mem_cons, h.mem_iff]
    simp [hi]
  · exact List.pairwise_cons.2 ⟨fun p hp => h.lt_of_mem hp, h.sorted⟩

/-- A closing parenthesis closes the innermost one that is open. -/
theorem closes {p : Nat} {ps : List Nat} (h : Scanned t i (p :: ps)) (hi : StandsAt ')' t i) :
    Closes t p i := by
  obtain ⟨hp, hlt, -⟩ := (h.mem_iff p).1 List.mem_cons_self
  have hlevel := h.level p ps List.suffix_rfl
  have hdepth := h.depth_eq
  have hsucc := depth_succ_of_opening hp
  rw [List.length_cons] at hdepth
  push_cast at hdepth
  refine ⟨hp, hi, hlt, by omega, fun k hpk hk => ?_⟩
  have := h.above p List.mem_cons_self k hpk hk
  omega

theorem closing {p : Nat} {ps : List Nat} (h : Scanned t i (p :: ps)) (hi : StandsAt ')' t i) :
    Scanned t (i + 1) ps := by
  have hcloses := h.closes hi
  have hsucc := depth_succ_of_closing hi
  have hdepth : depth t (i + 1) = ps.length := by
    rw [hsucc, h.depth_eq]
    simp
  have hlevel : ∀ r rs, r :: rs <:+ ps → depth t r = rs.length := fun r rs hrs =>
    h.level r rs (hrs.trans (List.suffix_cons _ _))
  refine ⟨h.nonneg_succ (by omega), hdepth, hlevel, fun r hr => ?_, fun r => ?_,
    (List.pairwise_cons.1 h.sorted).2⟩
  · exact h.above_succ (List.mem_cons_of_mem p hr) (hdepth ▸ depth_lt_of_mem hlevel hr)
  · constructor
    · intro hr
      obtain ⟨hopen, hri, hc⟩ := (h.mem_iff r).1 (List.mem_cons_of_mem p hr)
      refine ⟨hopen, by omega, fun c hlt => ?_⟩
      rcases Nat.lt_succ_iff_lt_or_eq.1 hlt with hlt | rfl
      · exact hc c hlt
      -- the depth behind the closing parenthesis is greater than before `r`
      · rintro ⟨-, -, -, heq, -⟩
        have hsucc' := depth_succ_of_opening hopen
        have := depth_lt_of_mem hlevel hr
        omega
    · rintro ⟨hopen, hri, hc⟩
      have hne : r ≠ i := by
        rintro rfl
        exact not_standsAt_of_standsAt hopen (by decide) hi
      have hmem := (h.mem_iff r).2 ⟨hopen, by omega, fun c hlt => hc c (by omega)⟩
      rcases List.mem_cons.1 hmem with rfl | hr
      · exact absurd hcloses (hc i (by omega))
      · exact hr

end Scanned

/-! ## The parenthesis at fault -/

/-- The parenthesis at fault: the first closing one that is too many or, if there is none,
    the leftmost opening one that is never closed. -/
def AtFault (t : Text) (p : Nat) : Prop :=
  IsLeast {j | Overcloses t j} p ∨ (∀ j, ¬ Overcloses t j) ∧ IsLeast {j | NeverClosed t j} p

/-- What a scan finds: the parenthesis at fault, or none if the parentheses are paired. -/
def Finds (t : Text) : Option Nat → Prop
  | some p => ¬ Paired t 0 t.length ∧ AtFault t p
  | none => Paired t 0 t.length ∧ ∀ p, ¬ AtFault t p

variable {t : Text}

/-- A closing parenthesis when none is open is the first one too many. -/
theorem Scanned.finds_closing {i : Nat} (h : Scanned t i []) (hi : StandsAt ')' t i) :
    Finds t (some i) := by
  have hdepth : depth t (i + 1) = -1 := by
    rw [depth_succ_of_closing hi, h.depth_eq]
    rfl
  refine ⟨fun hpaired => ?_, Or.inl ⟨⟨hi, by omega⟩, fun j hj => ?_⟩⟩
  · have := hpaired.2 (i + 1) (Nat.zero_le _) hi.lt_length
    rw [depth_zero] at this
    omega
  · by_contra hlt
    have := h.nonneg (j + 1) (by omega)
    exact absurd hj.2 (by omega)

theorem Scanned.neverClosed_iff {pending : List Nat} (h : Scanned t t.length pending) (p : Nat) :
    NeverClosed t p ↔ p ∈ pending := by
  rw [h.mem_iff]
  constructor
  · rintro ⟨hp, hc⟩
    exact ⟨hp, hp.lt_length, fun c _ => hc c⟩
  · rintro ⟨hp, -, hc⟩
    exact ⟨hp, fun c hcloses => hc c hcloses.2.1.lt_length hcloses⟩

theorem Scanned.not_overcloses {pending : List Nat} (h : Scanned t t.length pending) (p : Nat) :
    ¬ Overcloses t p := by
  rintro ⟨hp, hlt⟩
  have := h.nonneg (p + 1) hp.lt_length
  omega

/-- At the end of the text the outermost parenthesis that is open is never closed. -/
theorem Scanned.finds_getLast? {pending : List Nat} (h : Scanned t t.length pending) :
    Finds t pending.getLast? := by
  have hnever := h.neverClosed_iff
  cases hlast : pending.getLast? with
  | none =>
    obtain rfl := List.getLast?_eq_none_iff.1 hlast
    refine ⟨⟨h.depth_eq, fun k _ hk => h.nonneg k hk⟩, fun p => ?_⟩
    rintro (⟨hp, -⟩ | ⟨-, hp, -⟩)
    · exact h.not_overcloses p hp
    · exact absurd ((hnever p).1 hp) List.not_mem_nil
  | some p =>
    obtain ⟨ps, rfl⟩ := List.getLast?_eq_some_iff.1 hlast
    refine ⟨fun hpaired => ?_, Or.inr ⟨h.not_overcloses, (hnever p).2 (by simp), fun q hq => ?_⟩⟩
    · have hdepth := h.depth_eq
      rw [hpaired.1, depth_zero] at hdepth
      simp only [List.length_append, List.length_singleton] at hdepth
      omega
    · have hsorted := (List.pairwise_append.1 h.sorted).2.2
      rcases List.mem_append.1 ((hnever q).1 hq) with hq | hq
      · exact (hsorted q hq p (by simp)).le
      · exact (List.mem_singleton.1 hq).ge

/-- **A scan finds the parenthesis at fault**, from whatever place it goes on. -/
theorem unbalanced?_finds {i : Nat} {pending : List Nat} (hi : i ≤ t.length)
    (h : Scanned t i pending) :
    Finds t (unbalanced? i pending (marks (quotedAfter false (t.take i)) (t.drop i))) := by
  induction hn : t.length - i generalizing i pending with
  | zero =>
    obtain rfl : i = t.length := by omega
    rw [List.drop_length]
    exact h.finds_getLast?
  | succ n ih =>
    obtain ⟨c, u, hdrop⟩ := List.exists_cons_of_length_pos (l := t.drop i) (by simp; omega)
    obtain ⟨m, hm, hopening, hclosing⟩ := exists_marks_eq_cons hdrop
    rw [hm]
    cases m with
    | char c =>
      exact ih (by omega) (h.char (by simp [← hopening]) (by simp [← hclosing])) (by omega)
    | opening => exact ih (by omega) (h.opening (hopening.1 rfl)) (by omega)
    | closing =>
      have hstands := hclosing.1 rfl
      cases pending with
      | nil => exact h.finds_closing hstands
      | cons p ps => exact ih (by omega) (h.closing hstands) (by omega)

theorem unbalanced?_zero_finds (t : Text) : Finds t (unbalanced? 0 [] (marks false t)) :=
  unbalanced?_finds (Nat.zero_le _) (scanned_zero t)

theorem unbalanced?_eq_some_iff {p : Nat} :
    unbalanced? 0 [] (marks false t) = some p ↔ AtFault t p := by
  have hfinds := unbalanced?_zero_finds t
  constructor
  · intro h
    rw [h] at hfinds
    exact hfinds.2
  · intro hp
    cases h : unbalanced? 0 [] (marks false t) with
    | none =>
      rw [h] at hfinds
      exact absurd hp (hfinds.2 p)
    | some q =>
      rw [h] at hfinds
      rcases hfinds.2 with hq | ⟨hnone, hq⟩ <;> rcases hp with hp | ⟨hnone', hp⟩
      · rw [hq.unique hp]
      · exact absurd hq.1 (hnone' q)
      · exact absurd hp.1 (hnone p)
      · rw [hq.unique hp]

theorem extract_eq_error_iff_unbalanced? {q : Text} {e : Error} : extract q = .error e ↔
    ∃ p, unbalanced? 0 [] (marks false q) = some p ∧ e = .unbalancedParenthesis p := by
  rw [extract]
  cases unbalanced? 0 [] (marks false q) with
  | none => simp
  | some p => simp [eq_comm]

/-- **Block extraction fails iff the parentheses outside quotes are not paired**, and
    names the parenthesis at fault by its place. -/
theorem extract_eq_error_iff (q : Text) :
    ((∃ e, extract q = .error e) ↔ ¬ Paired q 0 q.length) ∧
      ∀ e, extract q = .error e ↔ ∃ p, e = .unbalancedParenthesis p ∧ p < q.length ∧
        (q[p]? = some ')' ∧ IsLeast {j | Overcloses q j} p ∨
          q[p]? = some '(' ∧ (∀ j, ¬ Overcloses q j) ∧ IsLeast {j | NeverClosed q j} p) := by
  constructor
  · have hfinds := unbalanced?_zero_finds q
    simp only [extract_eq_error_iff_unbalanced?]
    cases h : unbalanced? 0 [] (marks false q) with
    | none =>
      rw [h] at hfinds
      simpa using hfinds.1
    | some p =>
      rw [h] at hfinds
      simpa using hfinds.1
  · intro e
    rw [extract_eq_error_iff_unbalanced?]
    refine exists_congr fun p => ?_
    rw [unbalanced?_eq_some_iff, and_comm]
    refine and_congr_right fun _ => ⟨?_, ?_⟩
    · rintro (hp | ⟨hnone, hp⟩)
      · exact ⟨hp.1.1.lt_length, Or.inl ⟨hp.1.1.1, hp⟩⟩
      · exact ⟨hp.1.1.lt_length, Or.inr ⟨hp.1.1.1, hnone, hp⟩⟩
    · rintro ⟨-, ⟨-, hp⟩ | ⟨-, hp⟩⟩
      · exact Or.inl hp
      · exact Or.inr hp

/-- The quote that is still open hides the last parenthesis, so the outer one of the two
    before it is at fault. -/
example : extract "a~OR((b~)AND\")".toList = .error (.unbalancedParenthesis 4) := by decide

end Query

end RecordFilter
