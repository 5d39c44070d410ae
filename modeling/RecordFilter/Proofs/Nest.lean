/-
  Proofs.Nest — texts with groups, their marks and their quotes.

  * `ofMarks_toMarks`: balanced marks determine the groups;
  * `unbalanced?_eq_none_iff`: marks are balanced iff they are those of a text
    with groups;
  * `quotedAfter`: whether the end of a text is inside quotes;
  * `Regular`: the groups of a text are those of its unquoted parentheses.
-/
import Mathlib
import RecordFilter.Query.Block

namespace RecordFilter

namespace Query

/-! ## Quotes -/

/-- Whether the place behind a text is inside quotes; `quoted` tells it for the
    place before. -/
def quotedAfter : Bool → Text → Bool
  | quoted, [] => quoted
  | quoted, c :: t => quotedAfter (if c = '"' then !quoted else quoted) t

@[simp] theorem quotedAfter_append (b : Bool) (t u : Text) :
    quotedAfter b (t ++ u) = quotedAfter (quotedAfter b t) u := by
  induction t generalizing b with
  | nil => rfl
  | cons c t ih => simp only [List.cons_append, quotedAfter, ih]

theorem quotedAfter_of_notMem {b : Bool} {t : Text} (h : '"' ∉ t) : quotedAfter b t = b := by
  induction t with
  | nil => rfl
  | cons c t ih =>
    simp only [List.mem_cons, not_or] at h
    rw [quotedAfter, if_neg (Ne.symm h.1), ih h.2]

theorem quotedAfter_not (b : Bool) (t : Text) : quotedAfter (!b) t = !quotedAfter b t := by
  induction t generalizing b with
  | nil => rfl
  | cons c t ih => by_cases hc : c = '"' <;> simp [quotedAfter, hc, ih]

/-! ## Marks -/

@[simp] theorem map_toChar_marks (b : Bool) (t : Text) : (marks b t).map Mark.toChar = t := by
  induction t generalizing b with
  | nil => rfl
  | cons c t ih => rw [marks]; split_ifs <;> simp [Mark.toChar, *]

@[simp] theorem length_marks (b : Bool) (t : Text) : (marks b t).length = t.length := by
  rw [← List.length_map (f := Mark.toChar), map_toChar_marks]

theorem marks_append (b : Bool) (t u : Text) :
    marks b (t ++ u) = marks b t ++ marks (quotedAfter b t) u := by
  induction t generalizing b with
  | nil => rfl
  | cons c t ih =>
    simp only [List.cons_append, marks, quotedAfter, ih]
    split_ifs <;> simp

/-- A text without unquoted parentheses is marked as it stands. -/
theorem marks_of_notMem {b : Bool} {t : Text} (h₁ : '(' ∉ t) (h₂ : ')' ∉ t) :
    marks b t = t.map .char := by
  induction t generalizing b with
  | nil => rfl
  | cons c t ih =>
    simp only [List.mem_cons, not_or] at h₁ h₂
    simp only [marks, ih h₁.2 h₂.2, if_neg (Ne.symm h₁.1), if_neg (Ne.symm h₂.1)]
    split_ifs <;> rfl

namespace Nest

variable {α β : Type}

/-! ## Nests side by side -/

/-- One nest behind the other. -/
def append : Nest α → Nest α → Nest α
  | done, k => k
  | char c r, k => char c (r.append k)
  | group a i r, k => group a i (r.append k)

/-- A text without groups. -/
def ofText : Text → Nest α
  | [] => done
  | c :: t => char c (ofText t)

/-- The nest with other labels. -/
def map (f : α → β) : Nest α → Nest β
  | done => done
  | char c r => char c (r.map f)
  | group a i r => group (f a) (i.map f) (r.map f)

/-- The nest without its labels. -/
def bare (n : Nest α) : Nest Unit := n.map fun _ => ()

/-- The text of a nest, its groups in parentheses. -/
def text (n : Nest α) : Text := n.toMarks.map Mark.toChar

@[simp] theorem append_done (n : Nest α) : n.append done = n := by
  induction n with
  | done => rfl
  | char c r ih => rw [append, ih]
  | group a i r _ ih => rw [append, ih]

@[simp] theorem append_assoc (n k m : Nest α) :
    (n.append k).append m = n.append (k.append m) := by
  induction n with
  | done => rfl
  | char c r ih => simp only [append, ih]
  | group a i r _ ih => simp only [append, ih]

@[simp] theorem ofText_append (t u : Text) :
    (ofText (t ++ u) : Nest α) = (ofText t).append (ofText u) := by
  induction t with
  | nil => rfl
  | cons c t ih => simp only [List.cons_append, ofText, append, ih]

@[simp] theorem toMarks_append (n k : Nest α) : (n.append k).toMarks = n.toMarks ++ k.toMarks := by
  induction n with
  | done => rfl
  | char c r ih => simp [append, toMarks, ih]
  | group a i r _ ih => simp [append, toMarks, ih]

@[simp] theorem toMarks_ofText (t : Text) : (ofText t : Nest α).toMarks = t.map .char := by
  induction t with
  | nil => rfl
  | cons c t ih => simp [ofText, toMarks, ih]

@[simp] theorem toMarks_map (f : α → β) (n : Nest α) : (n.map f).toMarks = n.toMarks := by
  induction n with
  | done => rfl
  | char c r ih => simp [map, toMarks, ih]
  | group a i r ihi ihr => simp [map, toMarks, ihi, ihr]

@[simp] theorem text_append (n k : Nest α) : (n.append k).text = n.text ++ k.text := by
  simp [text]

@[simp] theorem text_done : (done : Nest α).text = [] := rfl

@[simp] theorem text_char (c : Char) (r : Nest α) : (char c r).text = c :: r.text := rfl

@[simp] theorem text_group (a : α) (i r : Nest α) :
    (group a i r).text = '(' :: i.text ++ ')' :: r.text := by
  simp [text, toMarks, Mark.toChar]

@[simp] theorem text_ofText (t : Text) : (ofText t : Nest α).text = t := by
  simp [text, Function.comp_def, Mark.toChar]

@[simp] theorem labels_append (n k : Nest α) : (n.append k).labels = n.labels ++ k.labels := by
  induction n with
  | done => rfl
  | char c r ih => simpa [append, labels] using ih
  | group a i r _ ih => simp [append, labels, ih]

@[simp] theorem labels_ofText (t : Text) : (ofText t : Nest α).labels = [] := by
  induction t with
  | nil => rfl
  | cons c t ih => simpa [ofText, labels] using ih

@[simp] theorem labels_map (f : α → β) (n : Nest α) : (n.map f).labels = n.labels.map f := by
  induction n with
  | done => rfl
  | char c r ih => simpa [map, labels] using ih
  | group a i r ihi ihr => simp [map, labels, ihi, ihr]

/-! ## Shapes -/

theorem bare_append (n k : Nest α) : (n.append k).bare = n.bare.append k.bare := by
  unfold bare
  induction n with
  | done => rfl
  | char c r ih => simp only [append, map, ih]
  | group a i r _ ih => simp only [append, map, ih]

theorem bare_ofText (t : Text) : (ofText t : Nest α).bare = ofText t := by
  unfold bare
  induction t with
  | nil => rfl
  | cons c t ih => simp only [ofText, map, ih]

theorem toMarks_eq_of_bare {n : Nest α} {m : Nest β} (h : n.bare = m.bare) :
    n.toMarks = m.toMarks := by
  have hn := toMarks_map (fun _ => ()) n
  have hm := toMarks_map (fun _ => ()) m
  rw [bare, bare] at h
  rw [← hn, h, hm]

theorem eq_ofText_of_toMarks {n : Nest α} {t : Text} (h : n.toMarks = t.map .char) :
    n = ofText t := by
  induction n generalizing t with
  | done => cases t with
    | nil => rfl
    | cons c t => simp [toMarks] at h
  | char c r ih => cases t with
    | nil => simp [toMarks] at h
    | cons d t =>
      simp only [toMarks, List.map_cons, List.cons.injEq, Mark.char.injEq] at h
      rw [h.1, ih h.2, ofText]
  | group a i r _ _ => cases t with
    | nil => simp [toMarks] at h
    | cons d t => simp [toMarks] at h

theorem eq_ofText_of_labels {n : Nest α} (h : n.labels = []) : n = ofText n.text := by
  induction n with
  | done => rfl
  | char c r ih => rw [text_char, ofText, ← ih h]
  | group a i r _ _ => simp [labels] at h

theorem bare_eq_ofText {n : Nest α} {t : Text} (h : n.bare = ofText t) : n = ofText t := by
  apply eq_ofText_of_toMarks
  rw [← toMarks_ofText (α := Unit), ← h, bare, toMarks_map]

theorem ofText_injective {t u : Text} (h : (ofText t : Nest α) = ofText u) : t = u := by
  have := congrArg text h
  rwa [text_ofText, text_ofText] at this

theorem group_ne_ofText {a : α} {i r : Nest α} {t : Text} : group a i r ≠ ofText t := by
  intro h
  have := congrArg labels h
  simp [labels] at this

/-- A nest of the shape of two is made of two nests of those shapes. -/
theorem exists_append_of_bare {a b : Nest Unit} {n : Nest α} (h : n.bare = a.append b) :
    ∃ k m : Nest α, n = k.append m ∧ k.bare = a ∧ m.bare = b := by
  induction a generalizing n with
  | done => exact ⟨done, n, rfl, rfl, h⟩
  | char c r ih =>
    cases n with
    | done => cases h
    | char d s =>
      simp only [bare, map, append, char.injEq] at h
      obtain ⟨k, m, rfl, hk, hm⟩ := ih h.2
      refine ⟨char d k, m, rfl, ?_, hm⟩
      rw [bare, map, h.1, ← hk, bare]
    | group => cases h
  | group u i r _ ih =>
    cases n with
    | done => cases h
    | char => cases h
    | group a j s =>
      simp only [bare, map, append, group.injEq] at h
      obtain ⟨k, m, rfl, hk, hm⟩ := ih h.2.2
      refine ⟨group a j k, m, rfl, ?_, hm⟩
      rw [bare, map, h.2.1, ← hk, bare]

/-! ## Balance -/

theorem foldr_push (n : Nest α) (m : Nest Unit) (ns : List (Nest Unit)) :
    n.toMarks.foldr push (m :: ns) = n.bare.append m :: ns := by
  induction n generalizing m ns with
  | done => rfl
  | char c r ih => simp [toMarks, ih, push, bare, map, append]
  | group a i r ihi ihr => simp [toMarks, ihi, ihr, push, bare, map, append]

/-- **The groups of balanced marks are determined by the marks.** -/
theorem ofMarks_toMarks (n : Nest α) : ofMarks n.toMarks = n.bare := by
  simp [ofMarks, foldr_push]

/-- Nests with the same marks have the same shape. -/
theorem bare_eq_of_toMarks {n : Nest α} {m : Nest β} (h : n.toMarks = m.toMarks) :
    n.bare = m.bare := by
  rw [← ofMarks_toMarks n, h, ofMarks_toMarks]

theorem unbalanced?_append (n : Nest α) (start : Nat) (pending : List Nat) (ms : List Mark) :
    unbalanced? start pending (n.toMarks ++ ms) =
      unbalanced? (start + n.toMarks.length) pending ms := by
  induction n generalizing start pending ms with
  | done => rfl
  | char c r ih =>
    simp only [toMarks, List.cons_append, unbalanced?, ih, List.length_cons]
    congr 1; omega
  | group a i r ihi ihr =>
    simp only [toMarks, List.cons_append, List.append_assoc, unbalanced?, ihi, ihr,
      List.length_cons, List.length_append]
    congr 1; omega

/-- Marks in which all pending parentheses are closed start with those of a
    nest, up to the end or to the parenthesis that closes the innermost one. -/
theorem exists_toMarks_of_unbalanced? (ms : List Mark) : ∀ (start : Nat) (pending : List Nat),
    unbalanced? start pending ms = none →
      ∃ n : Nest Unit, (pending = [] ∧ ms = n.toMarks) ∨
        ∃ p ps rest start', pending = p :: ps ∧ ms = n.toMarks ++ .closing :: rest ∧
          unbalanced? start' ps rest = none := by
  induction hl : ms.length using Nat.strong_induction_on generalizing ms with
  | _ l ih =>
    subst hl
    intro start pending h
    rcases ms with _ | ⟨_ | _ | _, ms⟩
    · simp only [unbalanced?, List.getLast?_eq_none_iff] at h
      exact ⟨done, Or.inl ⟨h, rfl⟩⟩
    · next c =>
      obtain ⟨n, ⟨rfl, rfl⟩ | ⟨p, ps, rest, s, rfl, rfl, h'⟩⟩ := ih _ (by simp) ms rfl _ _ h
      · exact ⟨char c n, Or.inl ⟨rfl, rfl⟩⟩
      · exact ⟨char c n, Or.inr ⟨p, ps, rest, s, rfl, rfl, h'⟩⟩
    · obtain ⟨i, ⟨h₀, -⟩ | ⟨p, ps, rest, s, h₀, rfl, h'⟩⟩ := ih _ (by simp) ms rfl _ _ h
      · cases h₀
      cases h₀
      obtain ⟨n, ⟨rfl, rfl⟩ | ⟨p, ps, rest', s', rfl, rfl, h''⟩⟩ :=
        ih _ (by simp; omega) rest rfl _ _ h'
      · exact ⟨group () i n, Or.inl ⟨rfl, rfl⟩⟩
      · exact ⟨group () i n, Or.inr ⟨p, ps, rest', s', rfl, by simp [toMarks], h''⟩⟩
    · cases pending with
      | nil => cases h
      | cons p ps => exact ⟨done, Or.inr ⟨p, ps, ms, _, rfl, rfl, h⟩⟩

/-- **Marks are balanced iff they are the marks of a nest.** -/
theorem unbalanced?_eq_none_iff {ms : List Mark} :
    unbalanced? 0 [] ms = none ↔ ∃ n : Nest Unit, n.toMarks = ms := by
  constructor
  · intro h
    obtain ⟨n, ⟨-, rfl⟩ | ⟨_, _, _, _, h₀, -⟩⟩ := exists_toMarks_of_unbalanced? ms _ _ h
    · exact ⟨n, rfl⟩
    · cases h₀
  · rintro ⟨n, rfl⟩
    rw [← List.append_nil n.toMarks, unbalanced?_append]; rfl

/-- What is behind balanced marks does not make them balanced, if it is balanced
    itself. -/
theorem unbalanced?_append_toMarks (ms : List Mark) (k : Nest α) (start : Nat)
    (pending : List Nat) :
    unbalanced? start pending (ms ++ k.toMarks) = unbalanced? start pending ms := by
  induction ms generalizing start pending with
  | nil =>
    have := unbalanced?_append k start pending []
    rwa [List.append_nil] at this
  | cons m ms ih =>
    cases m with
    | char c => exact ih _ _
    | opening => exact ih _ _
    | closing =>
      cases pending with
      | nil => rfl
      | cons p pending => exact ih _ _

/-! ## Groups and quotes -/

/-- Groups stand outside quotes and close outside quotes, and all other
    parentheses are quoted. -/
def Regular : Bool → Nest α → Prop
  | _, done => True
  | b, char c r =>
    (b = false → c ≠ '(' ∧ c ≠ ')') ∧ Regular (if c = '"' then !b else b) r
  | b, group _ i r =>
    b = false ∧ Regular false i ∧ quotedAfter false i.text = false ∧ Regular false r

/-- The groups of a nest are those of its own text iff it is regular. -/
theorem toMarks_eq_marks_text_iff {n : Nest α} {b : Bool} :
    n.toMarks = marks b n.text ↔ n.Regular b := by
  induction n generalizing b with
  | done => simp [toMarks, marks, Regular]
  | char c r ih =>
    simp only [toMarks, text_char, marks, Regular, ← ih]
    by_cases hq : c = '"'
    · simp [hq]
    cases b with
    | true => simp [hq]
    | false => by_cases h₁ : c = '(' <;> by_cases h₂ : c = ')' <;> simp [hq, h₁, h₂]
  | group a i r ihi ihr =>
    simp only [toMarks, text_group, List.cons_append, marks, Regular, ← ihi, ← ihr,
      show ('(' : Char) ≠ '"' by decide, if_false, if_true]
    cases b with
    | true => simp
    | false =>
      rw [marks_append]
      simp only [Bool.false_eq_true, if_false, List.cons.injEq, true_and]
      constructor
      · intro h
        obtain ⟨hi, hr⟩ := List.append_inj h (by simp [text])
        cases hq : quotedAfter false i.text with
        | true => simp [hq, marks] at hr
        | false =>
          rw [hq, marks, if_neg (by decide), if_neg (by decide), if_neg (by decide),
            if_pos rfl] at hr
          exact ⟨hi, rfl, (List.cons.inj hr).2⟩
      · rintro ⟨hi, hq, hr⟩
        simp [hi, hq, marks, ← hr]

theorem regular_of_toMarks {n : Nest α} {b : Bool} {t : Text} (h : n.toMarks = marks b t) :
    n.text = t ∧ n.Regular b := by
  have ht : n.text = t := by rw [text, h, map_toChar_marks]
  exact ⟨ht, toMarks_eq_marks_text_iff.1 (by rw [ht, h])⟩

@[simp] theorem regular_append {n k : Nest α} {b : Bool} :
    (n.append k).Regular b ↔ n.Regular b ∧ k.Regular (quotedAfter b n.text) := by
  induction n generalizing b with
  | done => simp [append, Regular, quotedAfter]
  | char c r ih => simp [append, Regular, ih, quotedAfter, and_assoc]
  | group a i r _ ih =>
    simp only [append, Regular, ih, text_group, quotedAfter_append, quotedAfter, List.cons_append]
    constructor
    · rintro ⟨rfl, hi, hq, hr, hk⟩
      exact ⟨⟨rfl, hi, hq, hr⟩, by simpa [hq] using hk⟩
    · rintro ⟨⟨rfl, hi, hq, hr⟩, hk⟩
      exact ⟨rfl, hi, hq, hr, by simpa [hq] using hk⟩

end Nest

end Query

end RecordFilter
