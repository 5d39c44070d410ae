/-
  Text — the characters that queries, records and reports are made of.

  A text is the list of its Unicode scalar values, so every index into it is a
  character position and its order is that of code points.

  * `Text.ofNat`, `Text.ofInt`, `Text.ofSigned`: decimal numerals;
  * `Text.numeral?`: the bounded reading of a decimal numeral;
  * `Text.hexValue?`: the reading of hexadecimal digits;
  * `Text.padRight`, `Text.line`: columns and lines;
  * `Text.pieces`: the text cut at a character;
  * `Text.occursIn`: the substring test;
  * `Text.precedes`: the order of texts;
  * `Text.byteCount`: the size of the text in bytes.
-/

namespace RecordFilter

/-- A text: its Unicode scalar values in order. -/
abbrev Text := List Char

namespace Text

/-! ## Numerals -/

/-- The decimal numeral of `n`, without leading zeros. -/
def ofNat (n : Nat) : Text := Nat.toDigits 10 n

/-- The decimal numeral of `i`, with a leading `-` if it is negative. -/
def ofInt : Int → Text
  | .ofNat n => ofNat n
  | .negSucc n => '-' :: ofNat (n + 1)

/-- The decimal numeral of `i`, with its sign in any case. -/
def ofSigned : Int → Text
  | .ofNat n => '+' :: ofNat n
  | .negSucc n => '-' :: ofNat (n + 1)

/-- The value of a text of decimal digits, most significant first. -/
def value (digits : Text) : Nat := Nat.ofDigitChars 10 digits 0

/-- The largest number that a count, a cursor or an index may have: 64 bits. -/
def maxIndex : Nat := 0xFFFFFFFFFFFFFFFF

/-- The value of a text of one or more decimal digits, if it is at most
    `maxIndex`.  Leading zeros are allowed. -/
def numeral? (t : Text) : Option Nat :=
  if t ≠ [] ∧ t.all Char.isDigit ∧ value t ≤ maxIndex then some (value t) else none

/-- A numeral that may carry a leading `+`. -/
def signedNumeral? : Text → Option Nat
  | '+' :: t => numeral? t
  | t => numeral? t

/-- The value of a hexadecimal digit. -/
def hexDigit? (c : Char) : Option Nat :=
  if c.isDigit then some (c.toNat - '0'.toNat)
  else if 'a' ≤ c ∧ c ≤ 'f' then some (c.toNat - 'a'.toNat + 10)
  else if 'A' ≤ c ∧ c ≤ 'F' then some (c.toNat - 'A'.toNat + 10)
  else none

/-- The value of hexadecimal digits, most significant first. -/
def hexValue? (digits : Text) : Option Nat :=
  digits.foldl (fun n c => n.bind fun n => (hexDigit? c).map (16 * n + ·)) (some 0)

/-! ## Columns and lines -/

/-- A run of `n` blanks. -/
def blanks (n : Nat) : Text := List.replicate n ' '

/-- The text followed by blanks up to `width` characters. -/
def padRight (width : Nat) (t : Text) : Text := t ++ blanks (width - t.length)

/-- The text as a line of its own. -/
def line (t : Text) : Text := t ++ ['\n']

/-- The texts one after the other, `separator` between two of them. -/
def join (separator : Text) (ts : List Text) : Text := (ts.intersperse separator).flatten

/-! ## Parts -/

/-- The text cut at every `separator`: one piece more than there are separators. -/
def pieces (separator : Char) : Text → List Text
  | [] => [[]]
  | c :: t =>
    if c = separator then [] :: pieces separator t
    else match pieces separator t with
      | p :: ps => (c :: p) :: ps
      | [] => [[c]]

/-- Whether `part` occurs in the text as a run of neighbouring characters. -/
def occursIn (part : Text) : Text → Bool
  | [] => part.isEmpty
  | c :: t => part.isPrefixOf (c :: t) || occursIn part t

/-! ## Order and size -/

/-- Whether the text comes before another: it is a proper beginning of the other,
    or has the lesser character where the two first differ. -/
def precedes : Text → Text → Bool
  | _, [] => false
  | [], _ :: _ => true
  | a :: s, b :: t => a.toNat < b.toNat || (a == b && precedes s t)

theorem precedes_self (t : Text) : precedes t t = false := by
  induction t with
  | nil => rfl
  | cons c t ih => simp [precedes, ih]

theorem precedes_asymm {s t : Text} (h : precedes s t) : precedes t s = false := by
  induction s generalizing t with
  | nil => cases t <;> rfl
  | cons a s ih =>
    cases t with
    | nil => simp [precedes] at h
    | cons b t =>
      simp only [precedes, Bool.or_eq_true, Bool.and_eq_true, decide_eq_true_eq, beq_iff_eq] at h
      rcases h with h | ⟨rfl, h⟩
      · have : b ≠ a := by rintro rfl; omega
        simp [precedes, this, Nat.le_of_lt h]
      · simp [precedes, ih h]

/-- Of two texts neither of which comes before the other both are the same. -/
theorem eq_of_not_precedes {s t : Text} (h : precedes s t = false) (h' : precedes t s = false) :
    s = t := by
  induction s generalizing t with
  | nil => cases t <;> simp_all [precedes]
  | cons a s ih =>
    cases t with
    | nil => simp [precedes] at h'
    | cons b t =>
      simp only [precedes, Bool.or_eq_false_iff, decide_eq_false_iff_not] at h h'
      have hab : a = b := Char.toNat_inj.mp (by omega)
      subst hab
      simp only [beq_self_eq_true, Bool.true_and] at h h'
      rw [ih h.2 h'.2]

/-- The number of bytes that the text takes in UTF-8. -/
def byteCount : Text → Nat
  | [] => 0
  | c :: t => c.utf8Size + byteCount t

end Text

end RecordFilter
