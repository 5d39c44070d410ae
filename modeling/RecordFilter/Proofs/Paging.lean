/-
  Proofs.Paging — pages, one after the other.

  A client reads a list page by page: it passes the next cursor of each page back
  until there is none, and may ask for a different number of matches each time.

  * `Page.rest`: the records that a page leaves to the pages after it;
  * `Page.exists_examined`: what one page does;
  * `Run`: the pages that a client gets, and `run_unique`, `exists_run`;
  * `run_lossless`: together the pages hold every match once, in input order.
-/
import Mathlib
import RecordFilter.Scan.Page

namespace RecordFilter

namespace Page

variable (p : Predicate) (records : List Json)

/-! ## One page -/

/-- Filling a page examines a beginning of the records, and takes the matches out
    of it. -/
theorem fill_examined (limit : Option Nat) (count : Nat) :
    ∃ examined, records = examined ++ (fill p limit count records).2.2 ∧
      (fill p limit count records).1 = p.filter examined ∧
      (fill p limit count records).2.1 = examined.length := by
  induction records generalizing count with
  | nil => exact ⟨[], rfl, rfl, rfl⟩
  | cons r records ih =>
    rw [fill]
    split_ifs with hfull hr
    · exact ⟨[], rfl, rfl, rfl⟩
    · obtain ⟨examined, h, hitems, hscanned⟩ := ih (count + 1)
      refine ⟨r :: examined, congrArg (r :: ·) h, ?_, congrArg (· + 1) hscanned⟩
      simp [hitems, Predicate.filter, hr]
    · obtain ⟨examined, h, hitems, hscanned⟩ := ih count
      refine ⟨r :: examined, congrArg (r :: ·) h, ?_, congrArg (· + 1) hscanned⟩
      simp [hitems, Predicate.filter, hr]

/-- A page never holds more matches than it may. -/
theorem length_fill_le {n count : Nat} (h : count ≤ n) :
    count + (fill p (some n) count records).1.length ≤ n := by
  induction records generalizing count with
  | nil => exact h
  | cons r records ih =>
    rw [fill]
    split_ifs with hfull hr
    · exact h
    · have hlt : count < n := by simpa [full] using hfull
      have : count + 1 + (fill p (some n) (count + 1) records).1.length ≤ n := ih hlt
      simp only [List.length_cons]
      omega
    · exact ih h

/-- A page that may hold a match examines a record, if there is one. -/
theorem scanned_fill_pos {limit : Option Nat} (h : full limit 0 = false) (hne : records ≠ []) :
    0 < (fill p limit 0 records).2.1 := by
  cases records with
  | nil => exact absurd rfl hne
  | cons r records =>
    rw [fill, if_neg (by simp [h])]
    split_ifs <;> exact Nat.succ_pos _

variable (cursor : Nat) (limit : Option Nat)

/-- The records that a page leaves to the pages after it. -/
def rest (page : Page) (records : List Json) : List Json :=
  match page.next with
  | none => []
  | some n => records.drop n

theorem rest_scan :
    (scan p records cursor limit).rest records = (fill p limit 0 (records.drop cursor)).2.2 := by
  obtain ⟨examined, h, -, hscanned⟩ := fill_examined p (records.drop cursor) limit 0
  by_cases hrest : (fill p limit 0 (records.drop cursor)).2.2 = []
  · simp [rest, scan, hrest]
  · -- some record is left, so the cursor was not behind the end
    have hlt : cursor < records.length := by
      by_contra hle
      rw [List.drop_eq_nil_of_le (Nat.le_of_not_lt hle)] at hrest
      exact hrest rfl
    simp only [rest, scan, hrest, if_false]
    rw [Nat.min_eq_left hlt.le, ← List.drop_drop, hscanned]
    conv_lhs => rw [h]
    rw [List.drop_left]

/-- **One page** examines records from its cursor on, holds the matches among
    them, and leaves the others to the pages after it. -/
theorem exists_examined : ∃ examined,
    records.drop cursor = examined ++ (scan p records cursor limit).rest records ∧
      (scan p records cursor limit).items = p.filter examined ∧
      (scan p records cursor limit).scanned = examined.length := by
  rw [rest_scan]
  exact fill_examined p (records.drop cursor) limit 0

theorem length_items_le {n : Nat} : (scan p records cursor (some n)).items.length ≤ n := by
  have := length_fill_le p (records.drop cursor) (Nat.zero_le n)
  simpa [scan] using this

/-- **A page with a next cursor leaves fewer records** than there were before it. -/
theorem length_rest_lt {next : Nat} (hlimit : full limit 0 = false)
    (h : (scan p records cursor limit).next = some next) :
    (records.drop next).length < (records.drop cursor).length := by
  have hrest : (scan p records cursor limit).rest records = records.drop next := by
    rw [rest, h]
  obtain ⟨examined, hex, -, hscanned⟩ := exists_examined p records cursor limit
  have hne : records.drop cursor ≠ [] := by
    intro hnil
    simp [scan, hnil, fill] at h
  have hpos : 0 < examined.length := hscanned ▸ scanned_fill_pos p _ hlimit hne
  rw [hex, hrest, List.length_append]
  omega

end Page

/-! ## Runs of pages -/

/-- The pages that a client gets from a cursor on: it passes each next cursor back
    until there is none.  `limits` are the limits that it asks for, page by page. -/
inductive Run (p : Predicate) (records : List Json) :
    (limits : Nat → Option Nat) → (cursor : Nat) → List Page → Prop
  | last {limits : Nat → Option Nat} {cursor : Nat}
      (h : (Page.scan p records cursor (limits 0)).next = none) :
      Run p records limits cursor [Page.scan p records cursor (limits 0)]
  | more {limits : Nat → Option Nat} {cursor next : Nat} {pages : List Page}
      (h : (Page.scan p records cursor (limits 0)).next = some next)
      (hpages : Run p records (fun i => limits (i + 1)) next pages) :
      Run p records limits cursor (Page.scan p records cursor (limits 0) :: pages)

section Runs

variable {p : Predicate} {records : List Json} {limits : Nat → Option Nat} {cursor : Nat}
  {pages : List Page}

/-- A client gets only one list of pages. -/
theorem run_unique {pages' : List Page} (h : Run p records limits cursor pages)
    (h' : Run p records limits cursor pages') : pages = pages' := by
  induction h generalizing pages' with
  | last hnone =>
    cases h' with
    | last => rfl
    | more hsome => simp [hnone] at hsome
  | more hsome _ ih =>
    cases h' with
    | last hnone => simp [hsome] at hnone
    | more hsome' hpages' =>
      rw [hsome, Option.some.injEq] at hsome'
      subst hsome'
      rw [ih hpages']

/-- **A run ends**, as every page leaves fewer records than there were before it. -/
theorem exists_run (hlimits : ∀ i, Page.full (limits i) 0 = false) :
    ∃ pages, Run p records limits cursor pages := by
  induction hl : (records.drop cursor).length using Nat.strong_induction_on
    generalizing cursor limits with
  | _ l ih =>
    subst hl
    cases h : (Page.scan p records cursor (limits 0)).next with
    | none => exact ⟨_, .last h⟩
    | some next =>
      have hlt := Page.length_rest_lt p records cursor (limits 0) (hlimits 0) h
      obtain ⟨pages, hpages⟩ := ih _ hlt (fun i => hlimits (i + 1)) rfl
      exact ⟨_, .more h hpages⟩

theorem Run.length_items_le (h : Run p records limits cursor pages) {i n : Nat} {page : Page}
    (hpage : pages[i]? = some page) (hn : limits i = some n) : page.items.length ≤ n := by
  induction h generalizing i with
  | last =>
    obtain rfl : i = 0 := by
      have := (List.getElem?_eq_some_iff.1 hpage).1
      simpa using this
    cases hpage
    rw [hn]
    exact Page.length_items_le _ _ _
  | more _ _ ih =>
    cases i with
    | zero =>
      cases hpage
      rw [hn]
      exact Page.length_items_le _ _ _
    | succ i => exact ih hpage hn

/-- The pages of a run share the records from its cursor on among them. -/
theorem Run.exists_examined (h : Run p records limits cursor pages) :
    ∃ examined : List (List Json), records.drop cursor = examined.flatten ∧
      pages.map (·.items) = examined.map p.filter ∧
      pages.map (·.scanned) = examined.map List.length := by
  induction h with
  | @last limits cursor h =>
    obtain ⟨examined, hex, hitems, hscanned⟩ := Page.exists_examined p records cursor (limits 0)
    rw [Page.rest, h] at hex
    exact ⟨[examined], by simpa using hex, by simp [hitems], by simp [hscanned]⟩
  | @more limits cursor next pages h _ ih =>
    obtain ⟨examined, hex, hitems, hscanned⟩ := Page.exists_examined p records cursor (limits 0)
    obtain ⟨further, hfurther, hitems', hscanned'⟩ := ih
    rw [Page.rest, h] at hex
    refine ⟨examined :: further, ?_, by simp [hitems, hitems'], by simp [hscanned, hscanned']⟩
    rw [hex, List.flatten_cons, ← hfurther]

end Runs

/-- **Paging is lossless.**  With limits that allow a match, a client gets exactly
    one list of pages.  No page holds more matches than were asked for, together
    they hold the matches from the cursor on in input order, and every record from
    there on is examined once. -/
theorem run_lossless (p : Predicate) (records : List Json) (cursor : Nat)
    {limits : Nat → Option Nat} (hlimits : ∀ i n, limits i = some n → 1 ≤ n) :
    (∃! pages, Run p records limits cursor pages) ∧
      ∀ pages, Run p records limits cursor pages →
        (∀ i page n, pages[i]? = some page → limits i = some n → page.items.length ≤ n) ∧
        pages.flatMap (·.items) = p.filter (records.drop (min cursor records.length)) ∧
        (pages.map (·.scanned)).sum = records.length - min cursor records.length := by
  have hfull : ∀ i, Page.full (limits i) 0 = false := by
    intro i
    cases hi : limits i with
    | none => rfl
    | some n =>
      have := hlimits i n hi
      simp only [Page.full, decide_eq_false_iff_not]
      omega
  have hdrop : records.drop (min cursor records.length) = records.drop cursor := by
    rcases Nat.le_total cursor records.length with h | h
    · rw [Nat.min_eq_left h]
    · rw [Nat.min_eq_right h, List.drop_length, List.drop_eq_nil_of_le h]
  constructor
  · obtain ⟨pages, hpages⟩ : ∃ pages, Run p records limits cursor pages := exists_run hfull
    exact ⟨pages, hpages, fun _ h => run_unique h hpages⟩
  intro pages h
  obtain ⟨examined, hex, hitems, hscanned⟩ := h.exists_examined
  refine ⟨fun i page n hpage hn => h.length_items_le hpage hn, ?_, ?_⟩
  · rw [List.flatMap_def, hitems, hdrop, hex]
    exact List.filter_flatten.symm
  · rw [hscanned, ← List.length_flatten, ← hex, ← hdrop, List.length_drop]

/-- A record with one flag. -/
def flagRecord (b : Bool) : Json := .object [("flag".toList, .bool b)]

theorem run_growing_pages :
    (∀ i n, (fun i => some (i + 1)) i = some n → 1 ≤ n) ∧
      ∃ pages, Run (.isTrue "flag".toList) ([true, true, false, true, false].map flagRecord)
          (fun i => some (i + 1)) 1 pages ∧
        pages.flatMap (·.items) = [flagRecord true, flagRecord true] ∧
        (pages.map (·.scanned)).sum = 4 := by
  have hlimits : ∀ i n, (fun i => some (i + 1)) i = some n → 1 ≤ n := by
    rintro i n ⟨⟩
    omega
  obtain ⟨⟨pages, h, -⟩, hall⟩ := run_lossless (.isTrue "flag".toList)
    ([true, true, false, true, false].map flagRecord) 1 hlimits
  obtain ⟨-, hitems, hscanned⟩ := hall pages h
  refine ⟨hlimits, pages, h, hitems.trans ?_, hscanned⟩
  simp [Predicate.filter, Predicate.selects, Predicate.isTrue, Predicate.visit, Predicate.resume,
    Comparison.selects, flagRecord, Json.field?, Json.bool?]

end RecordFilter
