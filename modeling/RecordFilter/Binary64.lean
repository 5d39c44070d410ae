/-
  Binary64 — finite binary floating-point numbers of 64 bits, exactly.

  A magnitude is `mantissa · 2 ^ exponent`; the mantissa has at most 53 bits and
  the exponent is at least `-1074`.  All arithmetic is on naturals, and every
  result is rounded to the nearest magnitude, a tie to the even mantissa.

  * `roundQuotient`: the nearest natural to a quotient;
  * `Binary64.ofRatio?`: the nearest magnitude to a quotient, unless that is
    too large;
  * `mul?`, `div?`: rounded product and quotient.
-/

namespace RecordFilter

/-- The nearest natural to `num / den`, a tie to the even one. -/
def roundQuotient (num den : Nat) : Nat :=
  let q := num / den
  let r := num % den
  if den < 2 * r ∨ (2 * r = den ∧ q % 2 = 1) then q + 1 else q

/-- The value `mantissa · 2 ^ exponent`. -/
structure Binary64 where
  mantissa : Nat
  exponent : Int
  deriving DecidableEq, Repr

namespace Binary64

/-- The least exponent. -/
def minExponent : Int := -1074

/-- The greatest exponent of a mantissa of 53 bits. -/
def maxExponent : Int := 971

/-- The least mantissa of 53 bits. -/
def leastMantissa : Nat := 0x10000000000000

/-- Zero. -/
def zero : Binary64 := ⟨0, minExponent⟩

/-- Numerator and denominator of `num / den / 2 ^ e`. -/
def scaled (num den : Nat) (e : Int) : Nat × Nat :=
  (num <<< (-e).toNat, den <<< e.toNat)

/-- The integer part of the binary logarithm of `num / den`, both positive. -/
def log2Ratio (num den : Nat) : Int :=
  let k : Int := num.log2 - den.log2
  let (n, d) := scaled num den k
  if d ≤ n then k else k - 1

/-- The magnitude nearest to `num / den`; none if it is out of range. -/
def ofRatio? (num den : Nat) : Option Binary64 :=
  if num = 0 then some zero else
  let e := max (log2Ratio num den - 52) minExponent
  let (n, d) := scaled num den e
  let m := roundQuotient n d
  let (m, e) := if m = 2 * leastMantissa then (leastMantissa, e + 1) else (m, e)
  if maxExponent < e then none else some ⟨m, e⟩

/-- The magnitude nearest to `num / den · 2 ^ e`. -/
def ofScaled? (num den : Nat) (e : Int) : Option Binary64 :=
  let (n, d) := scaled num den (-e)
  ofRatio? n d

/-- The rounded product. -/
def mul? (x y : Binary64) : Option Binary64 :=
  ofScaled? (x.mantissa * y.mantissa) 1 (x.exponent + y.exponent)

/-- The rounded quotient by a positive number. -/
def div? (x y : Binary64) : Option Binary64 :=
  ofScaled? x.mantissa y.mantissa (x.exponent - y.exponent)

/-- The greatest power of ten that is in range. -/
def maxTenPower : Nat := 308

/-- The power `10 ^ k`, rounded. -/
def tenPower? (k : Nat) : Option Binary64 := ofRatio? (Nat.pow 10 k) 1

/-- The product `x · 10 ^ e` in as few roundings as powers of ten in range allow;
    none if it is out of range. -/
def scaleByTen? (x : Binary64) (e : Int) : Option Binary64 :=
  if e.natAbs ≤ maxTenPower then
    (tenPower? e.natAbs).bind fun p => if 0 ≤ e then mul? x p else div? x p
  else if x.mantissa = 0 then some x
  else if 0 ≤ e then none
  else (tenPower? maxTenPower).bind fun p =>
    (div? x p).bind fun y => scaleByTen? y (e + maxTenPower)
termination_by e.natAbs
decreasing_by simp only [maxTenPower] at *; omega

/-- The number `significand · 10 ^ e`: the significand is rounded first, then
    scaled. -/
def ofDecimal? (significand : Nat) (e : Int) : Option Binary64 :=
  (ofRatio? significand 1).bind fun x => scaleByTen? x e

example : ofDecimal? 1 (-1) = some ⟨0x1999999999999A, -56⟩ := by decide +kernel
example : ofDecimal? 1 309 = none := by decide +kernel

end Binary64

end RecordFilter
