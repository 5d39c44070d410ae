/-
  Proofs.JsonText — what the compact text of a JSON value looks like.

  Inside a quoted string every quote and every control character is escaped.  So there are no
  control characters in a compact text, a string shows where it ends, and so does a value
  without numbers, whatever is nested in it.

  * `Json.readString_quote`: a quoted string is read back, whatever stands behind it;
  * `Json.printable_compact`: there are no control characters in a compact text;
  * `Json.NumberFree`: values without numbers, and `Json.NumberFree.cancels`: what stands
    at the beginning of a text is the compact text of one of them only.
-/
import RecordFilter.Json.Reader
import RecordFilter.Proofs.Operands

namespace RecordFilter

namespace Json

/-! ## Strings -/

/-- The four digits of a control character are read as its code. -/
theorem hexValue?_control {n : Nat} (h : n < 0x20) :
    Text.hexValue? ['0', '0', Nat.digitChar (n / 16), Nat.digitChar (n % 16)] = some n := by
  have key : ∀ n < 0x20,
      Text.hexValue? ['0', '0', Nat.digitChar (n / 16), Nat.digitChar (n % 16)] = some n := by
    decide +kernel
  exact key n h

/-- An escaped character is read as one unit, which stands for the character. -/
theorem exists_unit (c : Char) : ∃ u,
    (∀ us, joinUnits (u :: us) = (joinUnits us).map (c :: ·)) ∧
      ∀ t, readUnits (escape c ++ t) = (readUnits t).map fun (us, r) => (u :: us, r) := by
  unfold escape
  split
  iterate 7 exact ⟨.char _, fun _ => rfl, fun _ => rfl⟩
  next hquote hbackslash _ _ _ _ _ =>
  split_ifs with hc
  · refine ⟨.unit c.toNat, fun us => ?_, fun t => ?_⟩
    · have hhigh : isHighHalf c.toNat = false := by
        simp only [isHighHalf, Bool.and_eq_false_iff, decide_eq_false_iff_not]
        omega
      have hlow : isLowHalf c.toNat = false := by
        simp only [isLowHalf, Bool.and_eq_false_iff, decide_eq_false_iff_not]
        omega
      rw [joinUnits.eq_def]
      simp [hhigh, hlow]
    · have htext : "\\u00".toList ++ [Nat.digitChar (c.toNat / 16), Nat.digitChar (c.toNat % 16)] ++
          t = '\\' :: 'u' :: '0' :: '0' :: Nat.digitChar (c.toNat / 16) ::
            Nat.digitChar (c.toNat % 16) :: t := rfl
      rw [htext, readUnits, hexValue?_control hc, Option.bind_some]
  · refine ⟨.char c, fun us => rfl, fun t => ?_⟩
    rw [List.singleton_append, readUnits, if_neg hc]
    · exact hquote
    · exact fun _ _ _ _ _ h => absurd h hbackslash
    · exact fun _ _ h => absurd h hbackslash

/-- **A quoted string is read back**, whatever stands behind it. -/
theorem readString_quote (s t : Text) :
    readString (s.flatMap escape ++ '"' :: t) = some (s, t) := by
  have key : ∃ us, readUnits (s.flatMap escape ++ '"' :: t) = some (us, t) ∧
      joinUnits us = some s := by
    induction s with
    | nil => exact ⟨[], rfl, rfl⟩
    | cons c s ih =>
      obtain ⟨us, hus, hs⟩ := ih
      obtain ⟨u, hjoin, hread⟩ := exists_unit c
      refine ⟨u :: us, ?_, ?_⟩
      · rw [List.flatMap_cons, List.append_assoc, hread, hus, Option.map_some]
      · rw [hjoin, hs, Option.map_some]
  obtain ⟨us, hus, hs⟩ := key
  simp only [readString, hus, Option.bind_some, hs, Option.map_some]

theorem quote_append_inj {s s' t t' : Text} (h : quote s ++ t = quote s' ++ t') :
    s = s' ∧ t = t' := by
  simp only [quote, List.cons_append, List.append_assoc, List.nil_append, List.cons.injEq,
    true_and] at h
  have hread := congrArg readString h
  rw [readString_quote, readString_quote, Option.some.injEq, Prod.mk.injEq] at hread
  exact hread

/-! ## Texts -/

mutual

/-- What stands behind a value has no part in its text. -/
theorem writeCompact_append : ∀ (v : Json) (s t : Text),
    v.writeCompact (s ++ t) = v.writeCompact s ++ t
  | null, _, _ => rfl
  | bool true, _, _ => rfl
  | bool false, _, _ => rfl
  | number _, _, _ => (List.append_assoc ..).symm
  | string _, _, _ => (List.append_assoc ..).symm
  | array [], _, _ => rfl
  | array (v :: vs), s, t => by
    rw [writeCompact, writeCompact, List.cons_append, ← writeCompact_append v,
      ← writeCompactItems_append vs, List.cons_append]
  | object [], _, _ => rfl
  | object ((k, v) :: ms), s, t => by
    rw [writeCompact, writeCompact, ← List.cons_append, writeCompactMembers_append ms,
      writeCompact_append v]
    simp only [List.cons_append, List.append_assoc]

theorem writeCompactItems_append : ∀ (vs : List Json) (s t : Text),
    writeCompactItems vs (s ++ t) = writeCompactItems vs s ++ t
  | [], _, _ => rfl
  | v :: vs, s, t => by
    rw [writeCompactItems, writeCompactItems, List.cons_append, ← writeCompact_append v,
      ← writeCompactItems_append vs]

theorem writeCompactMembers_append : ∀ (ms : List (Text × Json)) (s t : Text),
    writeCompactMembers ms (s ++ t) = writeCompactMembers ms s ++ t
  | [], _, _ => rfl
  | (k, v) :: ms, s, t => by
    rw [writeCompactMembers, writeCompactMembers, writeCompactMembers_append ms,
      writeCompact_append v]
    simp only [List.cons_append, List.append_assoc]

end

theorem writeCompact_eq (v : Json) (s : Text) : v.writeCompact s = v.compact ++ s :=
  v.writeCompact_append [] s

/-! ## Control characters -/

/-- There are no control characters in the text. -/
def Printable (t : Text) : Prop := ∀ c ∈ t, 0x20 ≤ c.toNat

instance : DecidablePred Printable := fun t =>
  decidable_of_iff (t.all fun c => 0x20 ≤ c.toNat) (by simp [Printable])

@[simp] theorem printable_append {s t : Text} : Printable (s ++ t) ↔ Printable s ∧ Printable t :=
  List.forall_mem_append

@[simp] theorem printable_cons {c : Char} {t : Text} :
    Printable (c :: t) ↔ 0x20 ≤ c.toNat ∧ Printable t :=
  List.forall_mem_cons

theorem printable_nil : Printable [] := fun _ h => absurd h List.not_mem_nil

theorem Printable.subset {s t : Text} (ht : Printable t) (h : s ⊆ t) : Printable s :=
  fun c hc => ht c (h hc)

theorem printable_replicate {c : Char} (hc : 0x20 ≤ c.toNat) (n : Nat) :
    Printable (List.replicate n c) := by
  intro x hx
  rwa [List.eq_of_mem_replicate hx]

theorem printable_ofNat (n : Nat) : Printable (Text.ofNat n) := by
  intro c hc
  have hdigit := (Char.isDigit_iff_toNat.1 (Text.isDigit_of_mem_ofNat hc)).1
  exact le_trans (by decide) hdigit

theorem printable_ofInt (i : Int) : Printable (Text.ofInt i) := by
  cases i with
  | ofNat n => exact printable_ofNat n
  | negSucc n => exact printable_cons.2 ⟨by decide, printable_ofNat _⟩

theorem printable_ofSigned (i : Int) : Printable (Text.ofSigned i) := by
  cases i with
  | ofNat n => exact printable_cons.2 ⟨by decide, printable_ofNat n⟩
  | negSucc n => exact printable_cons.2 ⟨by decide, printable_ofNat _⟩

theorem printable_decimal (x : Binary64.Decimal) : Printable x.text := by
  unfold Binary64.Decimal.text
  -- the digits that are kept are digits of the number
  have hkept : Printable ((Text.ofNat x.digits).reverse.dropWhile (· == '0')).reverse :=
    (printable_ofNat x.digits).subset fun c hc =>
      List.mem_reverse.1 (List.dropWhile_sublist _ |>.subset (List.mem_reverse.1 hc))
  have hzeros (n : Nat) : Printable (List.replicate n '0') := printable_replicate (by decide) n
  dsimp only
  split_ifs
  · simp only [printable_append]
    exact ⟨⟨hkept, hzeros _⟩, by decide +kernel⟩
  · simp only [printable_append, printable_cons]
    exact ⟨hkept.subset (List.take_subset _ _), by decide, hkept.subset (List.drop_subset _ _)⟩
  · simp only [printable_append]
    exact ⟨⟨by decide +kernel, hzeros _⟩, hkept⟩
  · simp only [printable_append, printable_cons]
    exact ⟨⟨hkept.subset (List.take_subset _ _), printable_nil⟩, by decide, printable_ofSigned _⟩
  · simp only [printable_append, printable_cons]
    exact ⟨⟨hkept.subset (List.take_subset _ _), by decide, hkept.subset (List.tail_subset _)⟩,
      by decide, printable_ofSigned _⟩

theorem printable_number (n : Number) : Printable n.text := by
  have htext (x : Binary64) : Printable x.text := by
    rw [Binary64.text]
    split_ifs
    · decide +kernel
    · exact printable_decimal _
  cases n with
  | integer i => exact printable_ofInt i
  | real negative x =>
    rw [Number.text]
    split_ifs
    · exact printable_cons.2 ⟨by decide, htext x⟩
    · exact htext x

theorem printable_escape (c : Char) : Printable (escape c) := by
  unfold escape
  split
  iterate 7 decide +kernel
  split_ifs with hc
  · have key : ∀ n < 0x20,
        Printable ("\\u00".toList ++ [Nat.digitChar (n / 16), Nat.digitChar (n % 16)]) := by
      decide +kernel
    exact key _ hc
  · exact printable_cons.2 ⟨Nat.le_of_not_lt hc, printable_nil⟩

theorem printable_quote (s : Text) : Printable (quote s) := by
  have hchars : Printable (s.flatMap escape) := by
    intro x hx
    obtain ⟨c, -, hc⟩ := List.mem_flatMap.1 hx
    exact printable_escape c x hc
  rw [quote]
  simp only [printable_append, printable_cons]
  exact ⟨⟨by decide, hchars⟩, by decide, printable_nil⟩

mutual

theorem printable_writeCompact : ∀ (v : Json) {s : Text}, Printable s → Printable (v.writeCompact s)
  | null, _, h => printable_append.2 ⟨by decide +kernel, h⟩
  | bool true, _, h => printable_append.2 ⟨by decide +kernel, h⟩
  | bool false, _, h => printable_append.2 ⟨by decide +kernel, h⟩
  | number n, _, h => printable_append.2 ⟨printable_number n, h⟩
  | string s, _, h => printable_append.2 ⟨printable_quote s, h⟩
  | array [], _, h => printable_cons.2 ⟨by decide, printable_cons.2 ⟨by decide, h⟩⟩
  | array (v :: vs), _, h =>
    printable_cons.2 ⟨by decide, printable_writeCompact v (printable_writeCompactItems vs
      (printable_cons.2 ⟨by decide, h⟩))⟩
  | object [], _, h => printable_cons.2 ⟨by decide, printable_cons.2 ⟨by decide, h⟩⟩
  | object ((k, v) :: ms), s, h => by
    have hclose : Printable ('\x7d' :: s) := printable_cons.2 ⟨by decide, h⟩
    have hv := printable_writeCompact v (printable_writeCompactMembers ms hclose)
    rw [writeCompact]
    simp [printable_quote, hv]

theorem printable_writeCompactItems : ∀ (vs : List Json) {s : Text}, Printable s →
    Printable (writeCompactItems vs s)
  | [], _, h => h
  | v :: vs, _, h => printable_cons.2
    ⟨by decide, printable_writeCompact v (printable_writeCompactItems vs h)⟩

theorem printable_writeCompactMembers : ∀ (ms : List (Text × Json)) {s : Text}, Printable s →
    Printable (writeCompactMembers ms s)
  | [], _, h => h
  | (k, v) :: ms, _, h => by
    have hv := printable_writeCompact v (printable_writeCompactMembers ms h)
    rw [writeCompactMembers]
    simp [printable_quote, hv]

end

/-- **There are no control characters in a compact text.** -/
theorem printable_compact (v : Json) : Printable v.compact :=
  printable_writeCompact v printable_nil

/-! ## Values without numbers -/

/-- No number occurs in the value. -/
inductive NumberFree : Json → Prop
  | null : NumberFree .null
  | bool (b : Bool) : NumberFree (.bool b)
  | string (s : Text) : NumberFree (.string s)
  | array {vs : List Json} (h : ∀ v ∈ vs, NumberFree v) : NumberFree (.array vs)
  | object {ms : List (Text × Json)} (h : ∀ m ∈ ms, NumberFree m.2) : NumberFree (.object ms)

/-- The character that the text of a value begins with.  It tells the kinds of values
    apart, and the two truth values. -/
def lead : Json → Char
  | null => 'n'
  | bool true => 't'
  | bool false => 'f'
  | number _ => '0'
  | string _ => '"'
  | array _ => '['
  | object _ => '\x7b'

theorem NumberFree.head?_writeCompact {v : Json} (h : v.NumberFree) (s : Text) :
    (v.writeCompact s).head? = some v.lead := by
  cases h with
  | null => rfl
  | bool b => cases b <;> rfl
  | string => rfl
  | @array vs => cases vs <;> rfl
  | @object ms => cases ms <;> rfl

/-- What stands at the beginning of a text is the compact text of this value only. -/
def Cancels (v : Json) : Prop :=
  ∀ ⦃w s s'⦄, NumberFree w → v.writeCompact s = w.writeCompact s' → v = w ∧ s = s'

/-- What stands at the beginning of some texts is one list of items only, up to the end of
    the list. -/
theorem writeCompactItems_inj {vs ws : List Json} (hvs : ∀ v ∈ vs, v.Cancels)
    (hws : ∀ w ∈ ws, w.NumberFree) {s s' : Text}
    (h : writeCompactItems vs (']' :: s) = writeCompactItems ws (']' :: s')) :
    vs = ws ∧ s = s' := by
  induction vs generalizing ws with
  | nil =>
    cases ws with
    | nil => exact ⟨rfl, (List.cons.inj h).2⟩
    | cons => cases h
  | cons v vs ih =>
    obtain ⟨hv, hvs'⟩ := List.forall_mem_cons.1 hvs
    cases ws with
    | nil => cases h
    | cons w ws =>
      obtain ⟨hw, hws'⟩ := List.forall_mem_cons.1 hws
      obtain ⟨rfl, hrest⟩ := hv hw (List.cons.inj h).2
      obtain ⟨rfl, hs⟩ := ih hvs' hws' hrest
      exact ⟨rfl, hs⟩

theorem writeCompactMembers_inj {ms ks : List (Text × Json)} (hms : ∀ m ∈ ms, m.2.Cancels)
    (hks : ∀ k ∈ ks, k.2.NumberFree) {s s' : Text}
    (h : writeCompactMembers ms ('\x7d' :: s) = writeCompactMembers ks ('\x7d' :: s')) :
    ms = ks ∧ s = s' := by
  induction ms generalizing ks with
  | nil =>
    cases ks with
    | nil => exact ⟨rfl, (List.cons.inj h).2⟩
    | cons => cases h
  | cons m ms ih =>
    obtain ⟨hm, hms'⟩ := List.forall_mem_cons.1 hms
    cases ks with
    | nil => cases h
    | cons k ks =>
      obtain ⟨hk, hks'⟩ := List.forall_mem_cons.1 hks
      obtain ⟨key, v⟩ := m
      obtain ⟨key', w⟩ := k
      obtain ⟨rfl, hvalue⟩ := quote_append_inj (List.cons.inj h).2
      obtain ⟨rfl, hrest⟩ := hm hk (List.cons.inj hvalue).2
      obtain ⟨rfl, hs⟩ := ih hms' hks' hrest
      exact ⟨rfl, hs⟩

/-- The first character tells the kind of a value. -/
theorem NumberFree.lead_eq {v w : Json} (hv : v.NumberFree) (hw : w.NumberFree) {s s' : Text}
    (h : v.writeCompact s = w.writeCompact s') : v.lead = w.lead := by
  have hhead := congrArg List.head? h
  rw [hv.head?_writeCompact, hw.head?_writeCompact] at hhead
  exact Option.some.inj hhead

/-- The first item of an array shows that the array is not empty. -/
theorem NumberFree.writeCompact_ne {v : Json} (h : v.NumberFree) (s t : Text) :
    v.writeCompact s ≠ ']' :: t := by
  intro heq
  have hhead := h.head?_writeCompact s
  rw [heq, List.head?_cons, Option.some.injEq] at hhead
  cases h with
  | bool b => cases b <;> cases hhead
  | _ => cases hhead

theorem array_inj {vs ws : List Json} (hfree : ∀ v ∈ vs, v.NumberFree)
    (hvs : ∀ v ∈ vs, v.Cancels) (hws : ∀ w ∈ ws, w.NumberFree) {s s' : Text}
    (h : (array vs).writeCompact s = (array ws).writeCompact s') : vs = ws ∧ s = s' := by
  cases vs with
  | nil =>
    cases ws with
    | nil => exact ⟨rfl, (List.cons.inj (List.cons.inj h).2).2⟩
    | cons w ws =>
      exact absurd (List.cons.inj h).2.symm ((List.forall_mem_cons.1 hws).1.writeCompact_ne _ _)
  | cons v vs =>
    cases ws with
    | nil => exact absurd (List.cons.inj h).2 ((List.forall_mem_cons.1 hfree).1.writeCompact_ne _ _)
    | cons w ws =>
      -- with a comma before the first item, all items are alike
      exact writeCompactItems_inj hvs hws (congrArg (',' :: ·) (List.cons.inj h).2)

theorem object_inj {ms ks : List (Text × Json)} (hms : ∀ m ∈ ms, m.2.Cancels)
    (hks : ∀ k ∈ ks, k.2.NumberFree) {s s' : Text}
    (h : (object ms).writeCompact s = (object ks).writeCompact s') : ms = ks ∧ s = s' := by
  cases ms with
  | nil =>
    cases ks with
    | nil => exact ⟨rfl, (List.cons.inj (List.cons.inj h).2).2⟩
    | cons => cases h
  | cons m ms =>
    cases ks with
    | nil => cases h
    | cons k ks => exact writeCompactMembers_inj hms hks (congrArg (',' :: ·) (List.cons.inj h).2)

/-- **The compact text of a value without numbers shows where it ends**, and which value
    it is. -/
theorem NumberFree.cancels {v : Json} (hv : v.NumberFree) : v.Cancels := by
  -- by the first character both values are of one kind, and their parts cancel one by one
  induction hv with
  | null =>
    intro w s s' hw h
    have hlead := NumberFree.null.lead_eq hw h
    cases hw with
    | null => exact ⟨rfl, List.append_cancel_left h⟩
    | bool b => cases b <;> cases hlead
    | _ => cases hlead
  | bool b =>
    intro w s s' hw h
    have hlead := (NumberFree.bool b).lead_eq hw h
    cases hw with
    | bool b' =>
      cases b <;> cases b'
      · exact ⟨rfl, List.append_cancel_left h⟩
      · cases hlead
      · cases hlead
      · exact ⟨rfl, List.append_cancel_left h⟩
    | _ => cases b <;> cases hlead
  | string x =>
    intro w s s' hw h
    have hlead := (NumberFree.string x).lead_eq hw h
    cases hw with
    | string y =>
      obtain ⟨rfl, hs⟩ := quote_append_inj h
      exact ⟨rfl, hs⟩
    | bool b => cases b <;> cases hlead
    | _ => cases hlead
  | array hvs ih =>
    intro w s s' hw h
    have hlead := (NumberFree.array hvs).lead_eq hw h
    cases hw with
    | array hws =>
      obtain ⟨rfl, hs⟩ := array_inj hvs ih hws h
      exact ⟨rfl, hs⟩
    | bool b => cases b <;> cases hlead
    | _ => cases hlead
  | object hms ih =>
    intro w s s' hw h
    have hlead := (NumberFree.object hms).lead_eq hw h
    cases hw with
    | object hks =>
      obtain ⟨rfl, hs⟩ := object_inj ih hks h
      exact ⟨rfl, hs⟩
    | bool b => cases b <;> cases hlead
    | _ => cases hlead

end Json

end RecordFilter
