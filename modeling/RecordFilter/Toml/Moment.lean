/-
  Toml.Moment — dates and times.

  A date is a day of the calendar, leap years included; a time is one of a day,
  a leap second included.  Both together may carry an offset from universal time.

  * `Toml.daysIn`: the length of a month;
  * `Toml.readMoment`: a date, a time or both.
-/
import RecordFilter.Toml.Quoted

namespace RecordFilter

namespace Toml

/-! ## Numbers of fixed width -/

/-- A number of exactly `width` digits, at most `high` and at least `low`. -/
def readField (width low high : Nat) (t : Text) : Option (Nat × Text) :=
  let digits := t.take width
  let n := Text.value digits
  if digits.length = width ∧ digits.all Char.isDigit ∧ low ≤ n ∧ n ≤ high then
    some (n, t.drop width)
  else none

/-- The text after the given character. -/
def readMark (c : Char) : Text → Option Text
  | [] => none
  | d :: t => if d = c then some t else none

/-! ## Dates -/

/-- Whether a year has a leap day. -/
def isLeapYear (year : Nat) : Bool :=
  year % 4 == 0 && (year % 100 != 0 || year % 400 == 0)

/-- The number of days of a month. -/
def daysIn (year month : Nat) : Nat :=
  if month = 2 then (if isLeapYear year then 29 else 28)
  else if month = 4 ∨ month = 6 ∨ month = 9 ∨ month = 11 then 30
  else 31

example : daysIn 2000 2 = 29 ∧ daysIn 1900 2 = 28 ∧ daysIn 2024 2 = 29 := by decide

/-- The text after a date. -/
def readDate (t : Text) : Option Text := do
  let (year, t) ← readField 4 0 9999 t
  let (month, t) ← readField 2 1 12 (← readMark '-' t)
  let (_, t) ← readField 2 1 (daysIn year month) (← readMark '-' t)
  return t

/-! ## Times -/

/-- The text after a fraction of a second, if there is one. -/
def skipFraction : Text → Text
  | '.' :: t =>
    match t.takeWhile Char.isDigit with
    | [] => '.' :: t
    | _ => t.dropWhile Char.isDigit
  | t => t

/-- The text after a time of day. -/
def readTime (t : Text) : Option Text := do
  let (_, t) ← readField 2 0 23 t
  let (_, t) ← readField 2 0 59 (← readMark ':' t)
  let (_, t) ← readField 2 0 60 (← readMark ':' t)
  return skipFraction t

/-- The text after an offset, if there is one. -/
def skipOffset : Text → Text
  | [] => []
  | c :: t =>
    if c = 'Z' ∨ c = 'z' then t
    else if c = '+' ∨ c = '-' then
      (do
        let (_, t) ← readField 2 0 23 t
        let (_, t) ← readField 2 0 59 (← readMark ':' t)
        return t).getD (c :: t)
    else c :: t

/-- The text after the time that may follow a date: a mark, a time and perhaps an
    offset. -/
def skipTime : Text → Text
  | [] => []
  | c :: t =>
    if c = 'T' ∨ c = 't' ∨ c = ' ' then
      match readTime t with
      | some t => skipOffset t
      | none => c :: t
    else c :: t

/-! ## Both -/

/-- A date, perhaps with a time, or a time alone. -/
def readMoment (t : Text) : Option (Value × Text) :=
  match readDate t with
  | some t => some (.moment, skipTime t)
  | none => (readTime t).map (.moment, ·)

end Toml

end RecordFilter
