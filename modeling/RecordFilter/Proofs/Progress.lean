/-
  Proofs.Progress — clients that follow the cursor.

  A client runs a scan, and runs it again from the next cursor of each page, until a
  page has none.  It gets to an end unless a page may hold no match at all: such a
  page examines no record, and its next cursor is its own.

  * `Page.lt_next_iff`: the pages whose next cursor is behind their own;
  * `Scan`, `Invocation.Scans`: what a run of the scan command pages through;
  * `Scan.AllowsNone`: a limit of zero is asked for, or set;
  * `Invocation.Next`: the runs that a client makes one after the other, and
    `Invocation.Scans.endless_iff`: when they never come to an end;
  * `scan_progress_iff`: all of this together.
-/
import RecordFilter.Command.Run
import RecordFilter.Proofs.Paging

namespace RecordFilter

namespace Page

/-! ## One page -/

theorem full_zero_iff {limit : Option Nat} : full limit 0 = true ↔ limit = some 0 := by
  cases limit <;> simp [full]

theorem fill_of_full {limit : Option Nat} {count : Nat} (p : Predicate) (records : List Json)
    (h : full limit count = true) : fill p limit count records = ([], 0, records) := by
  cases records with
  | nil => rfl
  | cons r records => rw [fill, if_pos h]

section
variable {p : Predicate} {records : List Json} {cursor : Nat} {limit : Option Nat} {n : Nat}

/-- Only a page that starts at a record has a next cursor. -/
theorem cursor_lt_of_next (h : (scan p records cursor limit).next = some n) :
    cursor < records.length := by
  by_contra hle
  have hnil : records.drop cursor = [] := List.drop_eq_nil_of_le (Nat.le_of_not_lt hle)
  simp [scan, hnil, fill] at h

/-- A page that may hold no match starts over. -/
theorem next_of_limit_zero (h : cursor < records.length) :
    (scan p records cursor (some 0)).next = some cursor := by
  have hne : records.drop cursor ≠ [] := by simpa using h
  have hfill : fill p (some 0) 0 (records.drop cursor) = ([], 0, records.drop cursor) :=
    fill_of_full p _ (full_zero_iff.2 rfl)
  simp only [scan, hfill, if_neg hne]
  rw [Nat.min_eq_left h.le, Nat.add_zero]

/-- **The next cursor is behind the cursor of the page** unless the page may hold no
    match; then it is the same. -/
theorem lt_next_iff (h : (scan p records cursor limit).next = some n) :
    cursor ≤ n ∧ (cursor < n ↔ limit ≠ some 0) := by
  have hcursor := cursor_lt_of_next h
  by_cases hlimit : limit = some 0
  · subst hlimit
    rw [next_of_limit_zero hcursor, Option.some.injEq] at h
    simp [h]
  · have hfull : full limit 0 = false := by
      rw [← Bool.not_eq_true, full_zero_iff]
      exact hlimit
    have hrest := length_rest_lt p records cursor limit hfull h
    rw [List.length_drop, List.length_drop] at hrest
    have hlt : cursor < n := by omega
    exact ⟨hlt.le, by simp [hlt, hlimit]⟩

end

end Page

/-! ## Runs of the scan command -/

/-- What a run of the scan command pages through, and what it is asked for. -/
structure Scan where
  predicate : Predicate
  records : List Json
  /-- How to answer, with the page size that is set. -/
  context : Context
  /-- The limit that is asked for. -/
  limit : Option Nat
  cursor : Nat
  /-- Whether all matches are asked for. -/
  all : Bool

namespace Scan

/-- The page that a scan shows. -/
def page (s : Scan) : Page :=
  .scan s.predicate s.records s.cursor (Command.pageLimit s.context s.limit s.all)

/-- The page may hold no match: a limit of zero is asked for, or none is asked for
    and the page size is set to zero. -/
def AllowsNone (s : Scan) : Prop :=
  s.all = false ∧ (s.limit = some 0 ∨ s.limit = none ∧ s.context.pageSize = some 0)

/-- The scan that a client makes next: the same from the next cursor of the page. -/
def Next (s s' : Scan) : Prop := ∃ n, s.page.next = some n ∧ s' = { s with cursor := n }

theorem pageLimit_eq_zero_iff (s : Scan) :
    Command.pageLimit s.context s.limit s.all = some 0 ↔ s.AllowsNone := by
  unfold Command.pageLimit AllowsNone
  cases s.all
  · cases s.limit
    · cases s.context.pageSize <;> simp [defaultPageSize]
    · simp
  · simp

theorem lt_next_iff {s : Scan} {n : Nat} (h : s.page.next = some n) :
    s.cursor ≤ n ∧ (s.cursor < n ↔ ¬ s.AllowsNone) := by
  rw [← pageLimit_eq_zero_iff]
  exact Page.lt_next_iff h

/-- A scan that allows no match is the next one after itself. -/
theorem next_self {s : Scan} (h : s.AllowsNone) (hcursor : s.cursor < s.records.length) :
    s.Next s := by
  refine ⟨s.cursor, ?_, rfl⟩
  rw [page, (pageLimit_eq_zero_iff s).2 h]
  exact Page.next_of_limit_zero hcursor

end Scan

namespace Invocation

/-- A run of the scan command that shows a page: the command line is accepted, the
    settings load, the query compiles, and the records are an array. -/
def Scans (i : Invocation) (s : Scan) : Prop :=
  ∃ manner settings query input,
    Command.ofArguments i.arguments =
        .ok (manner, .scan query input s.limit s.cursor s.all) ∧
      Settings.load i.host i.files = .ok settings ∧
      s.context = .of manner settings i.host ∧
      Query.compile query = .ok s.predicate ∧
      Command.readRecords i.files i.standardInput input = .ok s.records

/-- Two runs that a client makes one after the other. -/
def Next (i i' : Invocation) : Prop := ∃ s s', i.Scans s ∧ i'.Scans s' ∧ s.Next s'

/-- A client that starts with the run may go on forever. -/
def Endless (i : Invocation) : Prop :=
  ∃ runs : Nat → Invocation, runs 0 = i ∧ ∀ k, (runs k).Next (runs (k + 1))

theorem Scans.unique {i : Invocation} {s s' : Scan} (h : i.Scans s) (h' : i.Scans s') : s = s' := by
  obtain ⟨manner, settings, query, input, hargs, hset, hcontext, hquery, hrecords⟩ := h
  obtain ⟨manner', settings', query', input', hargs', hset', hcontext', hquery', hrecords'⟩ := h'
  rw [hargs, Except.ok.injEq, Prod.mk.injEq, Command.scan.injEq] at hargs'
  obtain ⟨rfl, rfl, rfl, hlimit, hcursor, hall⟩ := hargs'
  rw [hset, Except.ok.injEq] at hset'
  rw [hquery, Except.ok.injEq] at hquery'
  rw [hrecords, Except.ok.injEq] at hrecords'
  cases s
  cases s'
  simp_all

/-- The run shows the page of its scan, and leaves the files as they are. -/
theorem Scans.run_eq {i : Invocation} {s : Scan} (h : i.Scans s) :
    i.run = ⟨0, s.context.answer s.page.json (Report.page s.context.palette s.page), [],
      i.files⟩ := by
  obtain ⟨manner, settings, query, input, hargs, hset, hcontext, hquery, hrecords⟩ := h
  have hctx : Command.context (.scan query input s.limit s.cursor s.all) manner i =
      .ok s.context := by
    simp only [Command.context, Command.followsSettings, if_true, hset, hcontext]
    rfl
  have hexec : Command.execute (.scan query input s.limit s.cursor s.all) s.context i.host
      i.standardInput (.start i.files) = .ok () ⟨i.files,
        s.context.answer s.page.json (Report.page s.context.palette s.page), []⟩ := by
    have hrecords : Command.readRecords (Effects.start i.files).files i.standardInput input =
      .ok s.records := hrecords
    rw [Command.execute, Command.scanRecords, hquery, Procedure.ofQuery_ok_bind,
      Procedure.files_bind, hrecords]
    rfl
  rw [run, hargs]
  simp only [hctx, hexec]

/-- Each run of a client leaves fewer records behind its cursor, if a match is
    allowed. -/
theorem Scans.acc_next {i : Invocation} {s : Scan} (h : i.Scans s) (hs : ¬ s.AllowsNone) :
    Acc (fun i' i => Next i i') i := by
  induction hk : s.records.length - s.cursor using Nat.strong_induction_on
    generalizing i s with
  | _ k ih =>
    refine ⟨i, fun i' hi' => ?_⟩
    obtain ⟨t, t', ht, ht', n, hn, rfl⟩ := hi'
    obtain rfl := ht.unique h
    have hcursor := Page.cursor_lt_of_next hn
    have hlt := (Scan.lt_next_iff hn).2.2 hs
    exact ih (t.records.length - n) (by omega) ht' hs rfl

/-- **A client goes on forever iff** no match is allowed and a record is left. -/
theorem Scans.endless_iff {i : Invocation} {s : Scan} (h : i.Scans s) :
    i.Endless ↔ s.AllowsNone ∧ s.cursor < s.records.length := by
  constructor
  · intro hendless
    by_contra hnot
    have hacc : ¬ Acc (fun i' i => Next i i') i :=
      not_acc_iff_exists_descending_chain.2 hendless
    by_cases hs : s.AllowsNone
    · -- no record is left, so there is no next run
      refine hacc ⟨i, fun i' hi' => ?_⟩
      obtain ⟨t, t', ht, -, n, hn, -⟩ := hi'
      obtain rfl := ht.unique h
      exact absurd ⟨hs, Page.cursor_lt_of_next hn⟩ hnot
    · exact hacc (h.acc_next hs)
  · rintro ⟨hs, hcursor⟩
    -- the client makes the same run again and again
    exact ⟨fun _ => i, rfl, fun _ => ⟨s, s, h, h, Scan.next_self hs hcursor⟩⟩

end Invocation

/-- **Following the cursor makes progress unless no match is allowed.**  A run of the
    scan command shows its page.  The next cursor of the page is behind the cursor of
    the run, and every client that follows it comes to an end, unless a limit of zero
    is asked for or set; then the next cursor is the same again. -/
theorem scan_progress_iff {i : Invocation} {s : Scan} (h : i.Scans s) :
    i.run = ⟨0, s.context.answer s.page.json (Report.page s.context.palette s.page), [],
        i.files⟩ ∧
      (∀ n, s.page.next = some n → s.cursor ≤ n ∧ (s.cursor < n ↔ ¬ s.AllowsNone)) ∧
      (i.Endless ↔ s.AllowsNone ∧ s.cursor < s.records.length) :=
  ⟨h.run_eq, fun _ hn => Scan.lt_next_iff hn, h.endless_iff⟩

/-- Three records, of which the last two match in `flagRun`. -/
def flagRecords : List Json := [true, false, false].map flagRecord

/-- A run that asks for the records without the flag, with further arguments and with
    the given settings. -/
def flagRun (arguments : List Text) (settings : Text) : Invocation where
  arguments := ["--json".toList, "scan".toList, "~flag".toList, "--input=-".toList] ++ arguments
  host := .ofEnvironment [("PF_CONFIG".toList, "/settings".toList)]
  standardInput := .text (Json.array flagRecords).compact
  files := ⟨[], [(["settings".toList], .file (.text settings))]⟩

/-- The scan of such a run. -/
def flagScan (pageSize limit : Option Nat) (cursor : Nat) : Scan where
  predicate := .isFalse "flag".toList
  records := flagRecords
  context := ⟨true, .colored, false, false, pageSize⟩
  limit := limit
  cursor := cursor
  all := false

theorem scans_flagRun {arguments : List Text} {settings : Text} {pageSize limit : Option Nat}
    {cursor : Nat}
    (hargs : Command.ofArguments (flagRun arguments settings).arguments = .ok
      (⟨false, false, true, false⟩, .scan "~flag".toList "-".toList limit cursor false))
    (hset : Settings.load (flagRun arguments settings).host
      (flagRun arguments settings).files = .ok ⟨1, none, none, pageSize⟩) :
    (flagRun arguments settings).Scans (flagScan pageSize limit cursor) := by
  have hrecords : Command.readRecords (flagRun arguments settings).files
      (flagRun arguments settings).standardInput "-".toList = .ok flagRecords := by cbv
  exact ⟨_, _, _, _, hargs, hset, rfl, rfl, hrecords⟩

theorem scan_progress_one_match :
    (flagRun ["--cursor=1".toList] "scan.page_size = 1".toList).Scans
        (flagScan (some 1) none 1) ∧
      (flagScan (some 1) none 1).page.next = some 2 ∧ (flagScan (some 1) none 1).cursor < 2 ∧
      ¬ (flagRun ["--cursor=1".toList] "scan.page_size = 1".toList).Endless := by
  have h : (flagRun ["--cursor=1".toList] "scan.page_size = 1".toList).Scans
      (flagScan (some 1) none 1) := scans_flagRun rfl (by cbv)
  have hs : ¬ (flagScan (some 1) none 1).AllowsNone := by simp [Scan.AllowsNone, flagScan]
  have hpage : (flagScan (some 1) none 1).page.next = some 2 := by cbv
  obtain ⟨-, hnext, hendless⟩ := scan_progress_iff h
  exact ⟨h, hpage, (hnext 2 hpage).2.2 hs, fun he => hs (hendless.1 he).1⟩

/-- A limit of zero, asked for or set, leaves the next cursor where the run started. -/
theorem scan_starts_over :
    ((flagRun ["--limit=0".toList] []).Scans (flagScan none (some 0) 0) ∧
        (flagScan none (some 0) 0).page.next = some 0) ∧
      ((flagRun [] "scan.page_size = 0".toList).Scans (flagScan (some 0) none 0) ∧
        (flagScan (some 0) none 0).page.next = some 0) ∧
      ¬ ∀ (i : Invocation) (s : Scan) (n : Nat), i.Scans s → s.page.next = some n →
        s.cursor < n := by
  have hasked : (flagRun ["--limit=0".toList] []).Scans (flagScan none (some 0) 0) :=
    scans_flagRun rfl (by cbv)
  have hkept : (flagRun [] "scan.page_size = 0".toList).Scans (flagScan (some 0) none 0) :=
    scans_flagRun rfl (by cbv)
  exact ⟨⟨hasked, rfl⟩, ⟨hkept, rfl⟩, fun h => absurd (h _ _ 0 hasked rfl) (Nat.lt_irrefl 0)⟩

end RecordFilter
