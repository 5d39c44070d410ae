/-
  Toml.Number — integers and floating-point numbers.

  Digits may be grouped by single underscores.  Integers have 64 bits with sign
  and may be written to base 16, 8 or 2; a floating-point number has a fraction,
  an exponent or both and must not be too large.

  * `Toml.readNumber`: a number.
-/
import RecordFilter.Binary64
import RecordFilter.Toml.Quoted

namespace RecordFilter

namespace Toml

/-! ## Digits -/

/-- One or more digits, which single underscores between two of them may group. -/
def readDigits (isDigit : Char → Bool) (t : Text) : Option (Text × Text) :=
  let inside (c : Char) : Bool := isDigit c || c == '_'
  let groups := Text.pieces '_' (t.takeWhile inside)
  if groups.any (·.isEmpty) then none else some (groups.flatten, t.dropWhile inside)

/-- A sign, if there is one, and whether it is negative. -/
def readSign : Text → Bool × Text
  | '-' :: t => (true, t)
  | '+' :: t => (false, t)
  | t => (false, t)

/-! ## Integers -/

/-- The largest integer: 63 bits and a sign. -/
def maxInteger : Nat := 0x7FFFFFFFFFFFFFFF

/-- An integer with the given sign and magnitude, if it is in range. -/
def integer? (negative : Bool) (magnitude : Nat) : Option Value :=
  if negative then
    if magnitude ≤ maxInteger + 1 then some (.integer (-magnitude)) else none
  else if magnitude ≤ maxInteger then some (.integer magnitude) else none

/-- The digits to the given base. -/
def isDigitOf (base : Nat) (c : Char) : Bool :=
  match Text.hexDigit? c with
  | some d => d < base
  | none => false

/-- An integer to another base than ten, after its mark. -/
def readBased (base : Nat) (t : Text) : Option (Value × Text) :=
  (readDigits (isDigitOf base) t).bind fun (ds, r) =>
    let n := ds.foldl (fun n c => base * n + (Text.hexDigit? c).getD 0) 0
    (integer? false n).map (·, r)

/-! ## Floating-point numbers -/

/-- Whether `digits · 10 ^ exponent` is too large.  Numbers far out of range are
    told by their size, the others by rounding them. -/
def tooLarge (digits : Text) (exponent : Int) : Bool :=
  let n := Text.value digits
  let places : Int := (digits.dropWhile (· == '0')).length + exponent
  if n = 0 ∨ places < 300 then false
  else if 400 < places then true
  else (Binary64.ofRatio? (n * Nat.pow 10 exponent.toNat) (Nat.pow 10 (-exponent).toNat)).isNone

/-- The exponent after its mark. -/
def readExponent (t : Text) : Option (Int × Text) :=
  let (negative, t) := readSign t
  (readDigits Char.isDigit t).map fun (ds, r) =>
    (if negative then -(Text.value ds : Int) else Text.value ds, r)

/-- The name of a number that no digits stand for: infinity, or none at all. -/
def readNamed : Text → Option Text
  | 'i' :: 'n' :: 'f' :: t => some t
  | 'n' :: 'a' :: 'n' :: t => some t
  | _ => none

/-- What follows the whole part of a decimal number. -/
def readDecimal (negative : Bool) (whole t : Text) : Option (Value × Text) :=
  match t with
  | '.' :: t =>
    (readDigits Char.isDigit t).bind fun (fraction, t) =>
    let exponent? : Option (Int × Text) := match t with
      | c :: r => if c = 'e' ∨ c = 'E' then readExponent r else some (0, t)
      | [] => some (0, t)
    exponent?.bind fun (e, t) => real (whole ++ fraction) (e - fraction.length) t
  | c :: r =>
    if c = 'e' ∨ c = 'E' then (readExponent r).bind fun (e, t) => real whole e t
    else (integer? negative (Text.value whole)).map (·, t)
  | [] => (integer? negative (Text.value whole)).map (·, t)
where
  /-- A floating-point number.  Too small ones count as infinite. -/
  real (digits : Text) (exponent : Int) (t : Text) : Option (Value × Text) :=
    if !negative && tooLarge digits exponent then none else some (.real, t)

/-- A number. -/
def readNumber : Text → Option (Value × Text)
  | '0' :: 'x' :: t => readBased 16 t
  | '0' :: 'o' :: t => readBased 8 t
  | '0' :: 'b' :: t => readBased 2 t
  | t =>
    let (negative, t) := readSign t
    match readNamed t with
    | some r => some (.real, r)
    | none =>
      (readDigits Char.isDigit t).bind fun (whole, r) =>
        if t.head? = some '0' ∧ whole.length > 1 then none else readDecimal negative whole r

end Toml

end RecordFilter
