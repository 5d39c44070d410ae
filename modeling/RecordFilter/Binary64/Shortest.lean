/-
  Binary64.Shortest — the shortest decimal that reads back.

  A magnitude stands for all reals that round to it, an interval that holds its
  ends if the mantissa is even.  Among the decimals in the interval with the
  fewest digits the nearest is chosen, of two equally near the even one.  On a
  grid of multiples of `10 ^ k` only the two neighbours of the magnitude have to
  be tried.

  * `Binary64.shortest`: digits and exponent of that decimal;
  * `Binary64.text`: its text, positional for exponents from -5 to 15.
-/
import RecordFilter.Text
import RecordFilter.Binary64

namespace RecordFilter

namespace Binary64

/-- The number `digits · 10 ^ exponent`. -/
structure Decimal where
  digits : Nat
  exponent : Int
  deriving DecidableEq, Repr

/-- The least `k` with `num · 10 ^ k ≥ den / 10`, looked for below `fuel`: the
    zeros between the point and the first digit. -/
def leadingZeros (num den : Nat) : Nat → Nat
  | 0 => 0
  | fuel + 1 => if den ≤ num * 10 then 0 else leadingZeros (num * 10) den fuel + 1

/-- The number `e` with `10 ^ (e - 1) ≤ num / den < 10 ^ e`, for magnitudes. -/
def decimalPlace (num den : Nat) : Int :=
  if den ≤ num then (Nat.toDigits 10 (num / den)).length
  else -(leadingZeros num den 400 : Nat)

/-- The decimal on the grid of `10 ^ k` that reads back as `x`, if there is one. -/
def onGrid? (x : Binary64) (k : Int) : Option Decimal :=
  -- the interval in units of a quarter of the last binary place
  let value := 4 * x.mantissa
  let low :=
    if x.mantissa = leastMantissa ∧ minExponent < x.exponent then value - 1 else value - 2
  let high := value + 2
  let unit := Nat.pow 10 (-k).toNat <<< (x.exponent - 2).toNat
  let step := Nat.pow 10 k.toNat <<< (2 - x.exponent).toNat
  let even := x.mantissa % 2 == 0
  let inside (d : Nat) : Bool :=
    if even then low * unit ≤ d * step && d * step ≤ high * unit
    else low * unit < d * step && d * step < high * unit
  let d := value * unit / step
  let below := value * unit - d * step
  let above := (d + 1) * step - value * unit
  match inside d && d != 0, inside (d + 1) with
  | true, true =>
    some ⟨if below < above ∨ (below = above ∧ d % 2 = 0) then d else d + 1, k⟩
  | true, false => some ⟨d, k⟩
  | false, true => some ⟨d + 1, k⟩
  | false, false => none

/-- The shortest decimal that reads back as `x`: the first grid with a hit, from
    one digit to seventeen. -/
def shortest (x : Binary64) : Decimal :=
  let num := x.mantissa <<< x.exponent.toNat
  let den := 1 <<< (-x.exponent).toNat
  let place := decimalPlace num den
  ((List.range 17).findSome? fun n => onGrid? x (place - (n + 1 : Nat))).getD ⟨0, 0⟩

/-- The text of a positive decimal.  The decimal point is written within or
    next to the digits if that takes at most five zeros before or sixteen places
    in front of it; otherwise the number is written with a signed exponent.  A
    number without fraction keeps a zero after its point. -/
def Decimal.text (x : Decimal) : Text :=
  let digits := Text.ofNat x.digits
  -- trailing zeros are part of the exponent
  let kept := (digits.reverse.dropWhile (· == '0')).reverse
  let exponent := x.exponent + (digits.length - kept.length : Nat)
  let point := exponent + kept.length
  if 0 ≤ exponent ∧ point ≤ 16 then
    kept ++ List.replicate exponent.toNat '0' ++ ".0".toList
  else if 0 < point ∧ point ≤ 16 then
    kept.take point.toNat ++ '.' :: kept.drop point.toNat
  else if -5 < point ∧ point ≤ 0 then
    "0.".toList ++ List.replicate (-point).toNat '0' ++ kept
  else
    let fraction := if kept.length = 1 then [] else '.' :: kept.tail
    kept.take 1 ++ fraction ++ 'e' :: Text.ofSigned (point - 1)

/-- The text of a magnitude: the shortest decimal that reads back. -/
def text (x : Binary64) : Text :=
  if x.mantissa = 0 then "0.0".toList else x.shortest.text

example : (Binary64.ofDecimal? 1 (-1)).map text = some "0.1".toList := by decide +kernel
example : (Binary64.ofDecimal? 1 2).map text = some "100.0".toList := by decide +kernel
example : (Binary64.ofDecimal? 1 16).map text = some "1e+16".toList := by decide +kernel
example : text ⟨1, -1074⟩ = "5e-324".toList := by decide +kernel

end Binary64

end RecordFilter
