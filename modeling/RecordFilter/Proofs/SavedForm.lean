/-
  Proofs.SavedForm — saved settings read back.

  * `Toml.stands_ofNat`, `Toml.stands_booleanText`: the values that are saved;
  * `Toml.readLine_entry`, `Toml.readLine_header`: the lines that are saved;
  * `Settings.ofText_savedText`: the saved form of settings is read as the settings.
-/
import RecordFilter.Proofs.Operands
import RecordFilter.Settings.Reader

namespace RecordFilter

/-- A numeral has no leading zero but that of zero. -/
theorem Text.length_ofNat_of_head {n : Nat} (h : (ofNat n).head? = some '0') :
    (ofNat n).length = 1 := by
  by_cases hn : n < 10
  · rw [ofNat, Nat.toDigits_of_lt_base hn]
    rfl
  exfalso
  -- the last division that leaves something shows the first digit
  induction n using Nat.strong_induction_on with
  | _ n ih =>
    rw [ofNat, Nat.toDigits_of_base_le (by decide) (Nat.le_of_not_lt hn),
      List.head?_append_of_ne_nil _ Nat.toDigits_ne_nil] at h
    by_cases hlt : n / 10 < 10
    · rw [Nat.toDigits_of_lt_base hlt, List.head?_cons, Option.some.injEq,
        Nat.digitChar_eq_zero] at h
      omega
    · exact ih (n / 10) (by omega) h hlt

namespace Toml

/-! ## Runs of characters -/

section
variable {P : Char → Bool} {u s : Text} {c : Char}

theorem takeWhile_append_cons (hu : ∀ x ∈ u, P x) (hc : P c = false) :
    (u ++ c :: s).takeWhile P = u := by
  rw [List.takeWhile_append_of_pos hu, List.takeWhile_cons_of_neg (by rw [hc]; decide),
    List.append_nil]

theorem dropWhile_append_cons (hu : ∀ x ∈ u, P x) (hc : P c = false) :
    (u ++ c :: s).dropWhile P = c :: s := by
  rw [List.dropWhile_append_of_pos hu, List.dropWhile_cons_of_neg (by rw [hc]; decide)]

end

/-! ## Numbers -/

section
variable {ds rest : Text}

theorem readMark_of_digits (hd : ∀ x ∈ ds, x.isDigit) {c : Char} (hc : c.isDigit = false)
    (hn : c ≠ '\n') : readMark c (ds ++ '\n' :: rest) = none := by
  cases ds with
  | nil => exact if_neg hn.symm
  | cons d ds =>
    have hdc : d ≠ c := by
      rintro rfl
      rw [hd d List.mem_cons_self] at hc
      cases hc
    exact if_neg hdc

/-- Behind a number of fixed width there is no mark but further digits or the end of the
    line. -/
theorem readMark_of_readField (hd : ∀ x ∈ ds, x.isDigit) {width low high n : Nat} {r : Text}
    (h : readField width low high (ds ++ '\n' :: rest) = some (n, r)) {c : Char}
    (hc : c.isDigit = false) (hn : c ≠ '\n') : readMark c r = none := by
  rw [readField] at h
  split_ifs at h with hf
  obtain ⟨hlen, hall, -, -⟩ := hf
  cases h
  by_cases hw : width ≤ ds.length
  · rw [List.drop_append_of_le_length hw]
    exact readMark_of_digits (fun x hx => hd x (List.mem_of_mem_drop hx)) hc hn
  · have hmem : '\n' ∈ (ds ++ '\n' :: rest).take width := by
      rw [List.take_append, List.take_of_length_le (by omega)]
      obtain ⟨k, hk⟩ := Nat.exists_eq_add_of_lt (Nat.lt_of_not_le hw)
      rw [hk, show ds.length + k + 1 - ds.length = k + 1 by omega, List.take_succ_cons]
      simp
    cases List.all_eq_true.1 hall _ hmem

theorem readMoment_of_digits (hd : ∀ x ∈ ds, x.isDigit) :
    readMoment (ds ++ '\n' :: rest) = none := by
  have hdate : readDate (ds ++ '\n' :: rest) = none := by
    rw [readDate]
    cases h : readField 4 0 9999 (ds ++ '\n' :: rest) with
    | none => rfl
    | some r => simp [readMark_of_readField hd h (c := '-') (by decide) (by decide)]
  have htime : readTime (ds ++ '\n' :: rest) = none := by
    rw [readTime]
    cases h : readField 2 0 23 (ds ++ '\n' :: rest) with
    | none => rfl
    | some r => simp [readMark_of_readField hd h (c := ':') (by decide) (by decide)]
  rw [readMoment, hdate]
  simp [htime]

theorem readDigits_of_digits (hne : ds ≠ []) (hd : ∀ x ∈ ds, x.isDigit) :
    readDigits Char.isDigit (ds ++ '\n' :: rest) = some (ds, '\n' :: rest) := by
  have hin : ∀ x ∈ ds, (x.isDigit || x == '_') = true := fun x hx => by simp [hd x hx]
  have hunder : '_' ∉ ds := fun h => by cases hd _ h
  rw [readDigits, takeWhile_append_cons hin (by decide), dropWhile_append_cons hin (by decide),
    Query.pieces_of_notMem hunder]
  simp [hne]

/-- Only digits and the end of the line stand in a numeral. -/
theorem isDigit_or_of_append_eq (hd : ∀ x ∈ ds, x.isDigit) (before : Text) {a : Char}
    {t : Text} (h : ds ++ '\n' :: rest = before ++ a :: t) (hb : '\n' ∉ before) :
    a.isDigit ∨ a = '\n' := by
  rcases List.append_eq_append_iff.1 h with ⟨more, rfl, hm⟩ | ⟨more, rfl, hm⟩
  · cases more with
    | nil =>
      cases hm
      exact Or.inr rfl
    | cons x more =>
      cases hm
      exact absurd (List.mem_append_right ds List.mem_cons_self) hb
  · cases more with
    | nil =>
      cases hm
      exact Or.inr rfl
    | cons x more =>
      cases hm
      exact Or.inl (hd a (List.mem_append_right before List.mem_cons_self))

theorem readDecimal_lineEnd {negative : Bool} (whole rest : Text) :
    readDecimal negative whole ('\n' :: rest) =
      (integer? negative (Text.value whole)).map (·, '\n' :: rest) := rfl

end

/-- **A numeral at the end of a line** is read as its number. -/
theorem readNumber_ofNat {n : Nat} (hn : n ≤ maxInteger) (rest : Text) :
    readNumber (Text.ofNat n ++ '\n' :: rest) = some (.integer n, '\n' :: rest) := by
  have hd : ∀ x ∈ Text.ofNat n, x.isDigit := fun x hx => Text.isDigit_of_mem_ofNat hx
  have hmark {a b : Char} {t : Text} (h : Text.ofNat n ++ '\n' :: rest = a :: b :: t)
      (ha : a ≠ '\n') : b.isDigit ∨ b = '\n' :=
    isDigit_or_of_append_eq hd [a] h (by simpa using ha.symm)
  have hfirst {a : Char} {t : Text} (h : Text.ofNat n ++ '\n' :: rest = a :: t) :
      a.isDigit ∨ a = '\n' := isDigit_or_of_append_eq hd [] h (by simp)
  have hsign : readSign (Text.ofNat n ++ '\n' :: rest) = (false, Text.ofNat n ++ '\n' :: rest) := by
    rw [readSign]
    all_goals
      intro t h
      rcases hfirst h with h | h <;> cases h
  have hnamed : readNamed (Text.ofNat n ++ '\n' :: rest) = none := by
    rw [readNamed]
    all_goals
      intro t h
      rcases hfirst h with h | h <;> cases h
  have hzero : ¬ ((Text.ofNat n ++ '\n' :: rest).head? = some '0' ∧ (Text.ofNat n).length > 1) := by
    rintro ⟨h0, hlen⟩
    rw [List.head?_append_of_ne_nil _ (Text.ofNat_ne_nil n)] at h0
    have := Text.length_ofNat_of_head h0
    omega
  rw [readNumber]
  · simp only [hsign, hnamed, readDigits_of_digits (Text.ofNat_ne_nil n) hd, Option.bind_some,
      if_neg hzero, readDecimal_lineEnd, Text.value_ofNat, integer?, if_pos hn,
      Bool.false_eq_true, if_false, Option.map_some]
  all_goals
    intro t h
    rcases hmark h (by decide) with h | h <;> cases h

/-! ## Values -/

theorem skipBlanks_of_not_isBlank {x : Char} (hx : isBlank x = false) (t : Text) :
    skipBlanks (x :: t) = x :: t := by
  rw [skipBlanks, List.dropWhile_cons_of_neg (by rw [hx]; decide)]

/-- Whether a text at the end of a line is read as a value. -/
structure Stands (t : Text) (v : Value) : Prop where
  readValue : ∀ rest, readValue maxDepth (t ++ '\n' :: rest) = some (v, '\n' :: rest)
  skipBlanks : ∀ rest, skipBlanks (t ++ '\n' :: rest) = t ++ '\n' :: rest

theorem stands_ofNat {n : Nat} (hn : n ≤ maxInteger) : Stands (Text.ofNat n) (.integer n) := by
  have hd : ∀ x ∈ Text.ofNat n, x.isDigit := fun x hx => Text.isDigit_of_mem_ofNat hx
  have hfirst {a : Char} {t rest : Text} (h : Text.ofNat n ++ '\n' :: rest = a :: t) :
      a.isDigit ∨ a = '\n' := isDigit_or_of_append_eq hd [] h (by simp)
  constructor <;> intro rest
  · have hstring : readString (Text.ofNat n ++ '\n' :: rest) = none := by
      rw [readString]
      all_goals
        intro t h
        rcases hfirst h with h | h <;> cases h
    rw [readValue]
    · rw [hstring]
      simp only [readMoment_of_digits hd, readNumber_ofNat hn, Option.none_or]
    all_goals
      intro t h
      rcases hfirst h with h | h <;> cases h
  · obtain ⟨x, ds, hds⟩ := List.exists_cons_of_ne_nil (Text.ofNat_ne_nil n)
    have hx : isBlank x = false := by
      have hdx := hd x (hds ▸ List.mem_cons_self)
      by_contra hb
      rw [Bool.not_eq_false, isBlank, Bool.or_eq_true, beq_iff_eq, beq_iff_eq] at hb
      rcases hb with rfl | rfl <;> cases hdx
    rw [hds]
    exact skipBlanks_of_not_isBlank hx _

theorem stands_booleanText (b : Bool) : Stands (Settings.booleanText b) (.boolean b) := by
  cases b with
  | false =>
    refine ⟨fun rest => ?_, fun rest => rfl⟩
    change readValue maxDepth ('f' :: 'a' :: 'l' :: 's' :: 'e' :: '\n' :: rest) = _
    rw [readValue]
  | true =>
    refine ⟨fun rest => ?_, fun rest => rfl⟩
    change readValue maxDepth ('t' :: 'r' :: 'u' :: 'e' :: '\n' :: rest) = _
    rw [readValue]

/-! ## Lines -/

theorem ne_of_isKeyChar {x a : Char} (hx : isKeyChar x) (ha : isKeyChar a = false) : x ≠ a := by
  rintro rfl
  rw [hx] at ha
  cases ha

theorem isBlank_of_isKeyChar {x : Char} (hx : isKeyChar x) : isBlank x = false := by
  rw [isBlank, Bool.or_eq_false_iff, beq_eq_false_iff_ne, beq_eq_false_iff_ne]
  exact ⟨ne_of_isKeyChar hx (by decide), ne_of_isKeyChar hx (by decide)⟩

theorem endLine_lineEnd (rest : Text) : endLine ('\n' :: rest) = some rest := rfl

section
variable {x : Char} {name : Text} (hname : ∀ y ∈ x :: name, isKeyChar y)
include hname

theorem ne_of_mem_name {a : Char} (ha : isKeyChar a = false) : x ≠ a :=
  ne_of_isKeyChar (hname x List.mem_cons_self) ha

theorem skipBlanks_name_append (t : Text) : skipBlanks (x :: name ++ t) = x :: name ++ t :=
  skipBlanks_of_not_isBlank (isBlank_of_isKeyChar (hname x List.mem_cons_self)) (name ++ t)

theorem readKeyPart_name {c : Char} (hc : isKeyChar c = false) (t : Text) :
    readKeyPart (x :: name ++ c :: t) = some (x :: name, c :: t) := by
  rw [readKeyPart]
  · rw [takeWhile_append_cons hname hc, dropWhile_append_cons hname hc]
  · rintro r ⟨⟩
    exact ne_of_mem_name hname (by decide) rfl
  · rintro r ⟨⟩
    exact ne_of_mem_name hname (by decide) rfl

/-- A key without quotes ends where its characters do. -/
theorem readKey_name {c : Char} (hc : isKeyChar c = false) {t : Text}
    (hdot : (skipBlanks (c :: t)).head? ≠ some '.') :
    readKey (x :: name ++ c :: t) = some ([x :: name], skipBlanks (c :: t)) := by
  have hparts : readKeyParts (x :: name ++ c :: t) = some ([x :: name], skipBlanks (c :: t)) := by
    rw [readKeyParts, skipBlanks_name_append hname, readKeyPart_name hname hc]
    dsimp only
    split
    · next r h =>
      rw [h] at hdot
      exact absurd rfl hdot
    · rfl
  rw [readKey, hparts]
  rfl

/-- **A header** is read as the name of its table. -/
theorem readLine_header (rest : Text) :
    readLine ('[' :: (x :: name ++ ']' :: '\n' :: rest)) = some (.table [x :: name], rest) := by
  have hkey : readKey (x :: name ++ ']' :: '\n' :: rest) =
      some ([x :: name], ']' :: '\n' :: rest) := readKey_name hname (by decide) nofun
  rw [readLine, skipBlanks_of_not_isBlank (by decide)]
  split
  · next t h =>
    cases h
    exact absurd rfl (ne_of_mem_name hname (by decide))
  · next t h =>
    cases h
    rw [hkey]
    rfl
  · next _ h => exact absurd rfl (h _)

/-- **A saved setting** is read as its key with its value. -/
theorem readLine_entry {value : Text} {v : Value} (hv : Stands value v) (rest : Text) :
    readLine (x :: name ++ ' ' :: '=' :: ' ' :: (value ++ '\n' :: rest)) =
      some (.entry [x :: name] v, rest) := by
  have hkey : readKey (x :: name ++ ' ' :: '=' :: ' ' :: (value ++ '\n' :: rest)) =
      some ([x :: name], '=' :: ' ' :: (value ++ '\n' :: rest)) :=
    readKey_name hname (by decide) nofun
  have hne {a : Char} {t : Text} (ha : isKeyChar a = false) :
      x :: name ++ ' ' :: '=' :: ' ' :: (value ++ '\n' :: rest) ≠ a :: t := by
    rintro ⟨⟩
    exact ne_of_mem_name hname ha rfl
  have hend : endLine (x :: name ++ ' ' :: '=' :: ' ' :: (value ++ '\n' :: rest)) = none := by
    rw [endLine, skipBlanks_name_append hname]
    split
    · next h =>
      split at h
      · next h' => exact absurd h' (hne (by decide))
      · cases h
    · next h =>
      split at h
      · next h' => exact absurd h' (hne (by decide))
      · cases h
        exact if_neg (ne_of_mem_name hname (by decide))
  rw [readLine, skipBlanks_name_append hname]
  split
  · next h => exact absurd h (hne (by decide))
  · next h => exact absurd h (hne (by decide))
  · rw [hend, readEntry, hkey]
    have hskip : skipBlanks (' ' :: (value ++ '\n' :: rest)) = value ++ '\n' :: rest :=
      hv.skipBlanks rest
    simp only [Option.bind_some, hskip, hv.readValue, Option.map_some, endLine_lineEnd]

end

theorem readLines_append {l rest : Text} {line : Line} (hne : l ≠ [])
    (h : readLine (l ++ rest) = some (line, rest)) :
    readLines (l ++ rest) = (readLines rest).map (line :: ·) := by
  have hlt : rest.length < (l ++ rest).length := by
    rw [List.length_append]
    exact Nat.lt_add_of_pos_left (List.length_pos_of_ne_nil hne)
  rw [readLines, if_neg (by simp [hne]), h]
  exact if_pos hlt

theorem joinBreaks_of_notMem {t : Text} (h : '\r' ∉ t) : joinBreaks t = some t := by
  induction t with
  | nil => rfl
  | cons c t ih =>
    rw [List.mem_cons, not_or] at h
    rw [joinBreaks, if_neg (Ne.symm h.1), ih h.2]
    · rfl
    · rintro r rfl
      exact absurd rfl h.1

end Toml

namespace Settings

open Toml

/-! ## Settings -/

/-- The lines of the saved form. -/
def savedLines (s : Settings) : List Line :=
  .entry ["version".toList] (.integer s.version) :: .blank :: .table ["output".toList] ::
    ((s.color.map fun b => Line.entry ["color".toList] (.boolean b)).toList ++
      ((s.json.map fun b => Line.entry ["json".toList] (.boolean b)).toList ++
        .blank :: .table ["scan".toList] ::
          (s.pageSize.map fun n : Nat => Line.entry ["page_size".toList] (.integer n)).toList))

/-- The table of the saved form. -/
def savedTable (s : Settings) : Table := [
  ("version".toList, .integer s.version),
  ("output".toList, .table .header (
    (s.color.map fun b => ("color".toList, Value.boolean b)).toList ++
      (s.json.map fun b => ("json".toList, Value.boolean b)).toList)),
  ("scan".toList, .table .header
    (s.pageSize.map fun n : Nat => ("page_size".toList, Value.integer n)).toList)]

theorem foldlM_savedLines (s : Settings) :
    s.savedLines.foldlM Document.add ⟨[], []⟩ = some ⟨s.savedTable, ["scan".toList]⟩ := by
  rcases s with ⟨v, _ | a, _ | b, _ | n⟩ <;> rfl

theorem ofTable?_savedTable {s : Settings} (hv : s.version ≤ maxVersion)
    (hn : ∀ n ∈ s.pageSize, n ≤ maxInteger) : ofTable? s.savedTable = some s := by
  rcases s with ⟨version, color, json, pageSize⟩
  have hversion : field? (numberOf maxVersion) (savedTable ⟨version, color, json, pageSize⟩)
      "version".toList = some (some version) := by
    have h : numberOf maxVersion (.integer version) = some version := if_pos hv
    change (numberOf maxVersion (.integer version)).map some = _
    rw [h]
    rfl
  have houtput : field? outputOf (savedTable ⟨version, color, json, pageSize⟩)
      "output".toList = some (some (color, json)) := by
    cases color <;> cases json <;> rfl
  have hscan : field? scanOf (savedTable ⟨version, color, json, pageSize⟩)
      "scan".toList = some (some pageSize) := by
    cases pageSize with
    | none => rfl
    | some n =>
      have h : numberOf maxInteger (.integer n) = some n := if_pos (hn n rfl)
      change ((numberOf maxInteger (.integer n)).map some).map some = _
      rw [h]
      rfl
  rw [ofTable?, hversion, houtput, hscan]
  rfl

/-- Whether a name is a key without quotes. -/
def isBare (name : Text) : Bool := !name.isEmpty && name.all isKeyChar

theorem exists_of_isBare {name : Text} (h : isBare name) :
    ∃ x ys, name = x :: ys ∧ ∀ y ∈ x :: ys, isKeyChar y := by
  rw [isBare, Bool.and_eq_true] at h
  obtain ⟨x, ys, rfl⟩ := List.exists_cons_of_ne_nil (l := name) (by rintro rfl; cases h.1)
  exact ⟨x, ys, rfl, List.all_eq_true.1 h.2⟩

/-- The line of a setting that is set, and none of one that is not. -/
theorem readLines_savedLine {α : Type} {name : Text} (hbare : isBare name) {value : Option α}
    {form : α → Text} {v : α → Value} (hv : ∀ a ∈ value, Stands (form a) (v a)) (rest : Text) :
    readLines (savedLine name (value.map form) ++ rest) =
      (readLines rest).map ((value.map fun a => Line.entry [name] (v a)).toList ++ ·) := by
  obtain ⟨x, name, rfl, hname⟩ := exists_of_isBare hbare
  cases value with
  | none => simp [savedLine]
  | some a =>
    have hline : savedLine (x :: name) (some (form a)) ++ rest =
        x :: name ++ ' ' :: '=' :: ' ' :: (form a ++ '\n' :: rest) := by
      simp [savedLine, Text.line]
    have hread := readLine_entry hname (hv a rfl) rest
    rw [← hline] at hread
    exact readLines_append (by simp [savedLine, Text.line]) hread

theorem readLines_blank (rest : Text) :
    readLines (Text.line [] ++ rest) = (readLines rest).map (.blank :: ·) :=
  readLines_append (List.cons_ne_nil _ _) rfl

theorem readLines_header {name : Text} (hbare : isBare name) (rest : Text) :
    readLines (Text.line ('[' :: name ++ [']']) ++ rest) =
      (readLines rest).map (.table [name] :: ·) := by
  obtain ⟨x, name, rfl, hname⟩ := exists_of_isBare hbare
  have hread := readLine_header hname rest
  refine readLines_append (List.cons_ne_nil _ _) ?_
  rw [← hread]
  simp [Text.line]

theorem readLines_savedText {s : Settings} (hv : s.version ≤ maxInteger)
    (hn : ∀ n ∈ s.pageSize, n ≤ maxInteger) : readLines s.savedText = some s.savedLines := by
  have hversion : Text.line ("version = ".toList ++ Text.ofNat s.version) =
      savedLine "version".toList ((some s.version).map Text.ofNat) := rfl
  have houtput : "[output]".toList = '[' :: "output".toList ++ [']'] := rfl
  have hscan : "[scan]".toList = '[' :: "scan".toList ++ [']'] := rfl
  rw [savedText, hversion, houtput, hscan]
  simp only [List.append_assoc]
  have hbool (value : Option Bool) : ∀ b ∈ value, Stands (booleanText b) (.boolean b) :=
    fun b _ => stands_booleanText b
  have hbare : isBare "page_size".toList := by decide +kernel
  have hpage := readLines_savedLine hbare (fun n hm => stands_ofNat (hn n hm)) []
  have hnil : readLines [] = some [] := by rw [readLines, if_pos rfl]
  rw [List.append_nil, hnil] at hpage
  rw [readLines_savedLine (by decide +kernel) (fun n hm => stands_ofNat (by cases hm; exact hv)),
    readLines_blank, readLines_header (by decide +kernel),
    readLines_savedLine (by decide +kernel) (hbool s.color),
    readLines_savedLine (by decide +kernel) (hbool s.json),
    readLines_blank, readLines_header (by decide +kernel), hpage]
  simp only [savedLines, Option.map_some, List.append_nil, Option.toList_some,
    List.singleton_append]

theorem return_notMem_savedText (s : Settings) : '\r' ∉ s.savedText := by
  have hline {t : Text} (h : '\r' ∉ t) : '\r' ∉ Text.line t := by
    rw [Text.line, List.mem_append, not_or]
    exact ⟨h, by decide⟩
  have hsaved {α : Type} {name : Text} (hname : '\r' ∉ name) (value : Option α) {form : α → Text}
      (hf : ∀ a, '\r' ∉ form a) : '\r' ∉ savedLine name (value.map form) := by
    cases value with
    | none => exact List.not_mem_nil
    | some a =>
      refine hline ?_
      rw [List.mem_append, List.mem_append, not_or, not_or]
      exact ⟨⟨hname, by decide⟩, hf a⟩
  have hnat (n : Nat) : '\r' ∉ Text.ofNat n := fun h => by cases Text.isDigit_of_mem_ofNat h
  have hbool (b : Bool) : '\r' ∉ booleanText b := by cases b <;> decide
  simp only [savedText, List.mem_append, not_or]
  refine ⟨⟨⟨⟨⟨⟨⟨hline ?_, ?_⟩, ?_⟩, hsaved ?_ _ hbool⟩, hsaved ?_ _ hbool⟩, ?_⟩, ?_⟩,
    hsaved ?_ _ hnat⟩
  · rw [List.mem_append, not_or]
    exact ⟨by decide, hnat _⟩
  all_goals decide

/-- **Saved settings read back.** -/
theorem ofText_savedText {s : Settings} (hv : s.version = currentVersion)
    (hn : ∀ n ∈ s.pageSize, n ≤ maxInteger) : ofText s.savedText = .ok s := by
  have hlines : readLines s.savedText = some s.savedLines :=
    readLines_savedText (by rw [hv]; decide) hn
  have hmark : dropMark s.savedText = s.savedText := rfl
  have hread : Toml.read s.savedText = some s.savedTable := by
    rw [Toml.read, hmark, joinBreaks_of_notMem (return_notMem_savedText s)]
    simp only [Option.bind_eq_bind, Option.bind_some, hlines, foldlM_savedLines]
    rfl
  rw [ofText, hread, Option.bind_some, ofTable?_savedTable (by rw [hv]; decide) hn]
  dsimp only
  rw [if_neg (by rw [hv]; exact lt_irrefl _), ← hv]

end Settings

end RecordFilter
