/-
  Scan.Page — paging through the records that a predicate selects.

  A page starts at a cursor, the index of a record, and ends as soon as it holds
  as many matches as its limit allows.  The page then tells where to go on, if
  any record was left unexamined.

  * `Page`, and `scan`, which fills one;
  * `Page.json`: the JSON form of a page.
-/
import RecordFilter.Scan.Match

namespace RecordFilter

/-- A page of records. -/
structure Page where
  /-- The records selected, in input order. -/
  items : List Json
  /-- The cursor of the next page, if a record was left unexamined. -/
  next : Option Nat
  scanned : Nat

namespace Page

/-- Whether a page with that many matches is full. -/
def full (limit : Option Nat) (count : Nat) : Bool :=
  match limit with
  | some n => n ≤ count
  | none => false

/-- Examines records until the page is full: the matches, the number of records
    examined, and those left.  The page holds `count` matches before. -/
def fill (p : Predicate) (limit : Option Nat) (count : Nat) :
    List Json → List Json × Nat × List Json
  | [] => ([], 0, [])
  | r :: records =>
    if full limit count then ([], 0, r :: records)
    else if p.selects r then
      let (items, scanned, rest) := fill p limit (count + 1) records
      (r :: items, scanned + 1, rest)
    else
      let (items, scanned, rest) := fill p limit count records
      (items, scanned + 1, rest)

/-- The page of `records` that starts at `cursor`.  Without a limit it reaches
    to the end. -/
def scan (p : Predicate) (records : List Json) (cursor : Nat) (limit : Option Nat) : Page :=
  let (items, scanned, rest) := fill p limit 0 (records.drop cursor)
  ⟨items, if rest = [] then none else some (min cursor records.length + scanned), scanned⟩

/-- The JSON form of a page. -/
def json (page : Page) : Json := .object (
  ("items".toList, .array page.items) ::
  (page.next.map fun n => ("next_cursor".toList, Json.ofNat n)).toList ++
  [("scanned".toList, Json.ofNat page.scanned)])

end Page

/-- The records that a predicate selects, in input order. -/
def Predicate.filter (p : Predicate) (records : List Json) : List Json :=
  records.filter p.selects

/-- The number of matches on a page when nothing else is asked for. -/
def defaultPageSize : Nat := 50

end RecordFilter
