/-
  Proofs.Composition — queries made of other queries.

  A query may be put in parentheses, and joined to another one that stands in
  parentheses.  The groups of the whole are numbered anew, those of one query between
  those of the other, but what the queries stand for stays the same.

  * `grouped`, `joined`: the texts of the whole;
  * `Derives.grouped`, `Derives.joined`: queries of the grammar, put together;
  * `compile_composed`: the whole compiles to what its parts compile to, joined.
-/
import RecordFilter.Proofs.Printing

namespace RecordFilter

namespace Query

/-- A query in parentheses. -/
def grouped (q : Text) : Text := '(' :: q ++ [')']

/-- A query with another one in parentheses joined to it. -/
def joined (q : Text) (c : Combinator) (q' : Text) : Text := q ++ c.keyword ++ grouped q'

/-- Without digits behind groups, what compiles is of the grammar. -/
theorem derives_of_compile {q : Text} {p : Predicate} (h : compile q = .ok p)
    (hd : NoDigitBehindGroup q) : Derives .expression q p := by
  obtain ⟨-, hb, hr, -⟩ := compile_eq_ok_iff.1 h
  have hz := (hr.derives (numbered_nestOf q).nodup).2
  rw [hb.text_nestOf] at hz
  exact hz.derives hd

theorem Derives.grouped {q : Text} {p : Predicate} (h : Derives .expression q p) :
    Derives .expression (grouped q) p :=
  .operand (.group h)

theorem Derives.joined {q q' : Text} {p p' : Predicate} (h : Derives .expression q p)
    (c : Combinator) (h' : Derives .expression q' p') :
    Derives .expression (joined q c q') (.join p c p') :=
  .join c h (.group h')

theorem isAllowed_of_mem_grouped {q : Text} (h : ∀ c ∈ q, isAllowed c) :
    ∀ c ∈ grouped q, isAllowed c := by
  intro c hc
  simp only [Query.grouped, List.cons_append, List.mem_cons, List.mem_append, List.not_mem_nil,
    or_false] at hc
  rcases hc with rfl | hc | rfl
  · decide
  · exact h c hc
  · decide

theorem isAllowed_of_mem_joined {q q' : Text} (h : ∀ x ∈ q, isAllowed x)
    (h' : ∀ x ∈ q', isAllowed x) {c : Combinator} : ∀ x ∈ joined q c q', isAllowed x := by
  intro x hx
  rw [Query.joined, List.mem_append, List.mem_append] at hx
  rcases hx with (hx | hx) | hx
  · exact h x hx
  · exact Tree.isAllowed_of_mem_keyword hx
  · exact isAllowed_of_mem_grouped h' x hx

theorem length_joined (q : Text) (c : Combinator) (q' : Text) :
    (joined q c q').length ≤ q.length + q'.length + 5 := by
  cases c <;> simp [Query.joined, Query.grouped, Combinator.keyword] <;> omega

/-- **Queries compose.**  A query in parentheses compiles to what the query compiles
    to.  A query joined to another one compiles to what both compile to, joined, if
    this has not too many comparisons.  No text is longer than the largest index. -/
theorem compile_composed {q q' : Text} {p p' : Predicate} (h : compile q = .ok p)
    (h' : compile q' = .ok p') (hd : NoDigitBehindGroup q) (hd' : NoDigitBehindGroup q')
    (hl : q.length + q'.length + 5 ≤ Text.maxIndex) :
    compile (grouped q) = .ok p ∧ ∀ c, compile (joined q c q') =
      if p.comparisons.length + p'.comparisons.length ≤ maxComparisons then .ok (.join p c p')
      else .error (.tooManyComparisons maxComparisons) := by
  obtain ⟨ha, -, -, hle⟩ := compile_eq_ok_iff.1 h
  obtain ⟨ha', -, -, -⟩ := compile_eq_ok_iff.1 h'
  have hq := derives_of_compile h hd
  have hq' := derives_of_compile h' hd'
  constructor
  · have hlength : (grouped q).length ≤ Text.maxIndex := by
      simp only [grouped, List.length_append, List.length_cons, List.length_nil]
      omega
    rw [compile_of_derives (isAllowed_of_mem_grouped ha) hlength hq.grouped, if_pos hle]
  · intro c
    have hcount : (Predicate.join p c p').comparisons.length =
        p.comparisons.length + p'.comparisons.length := List.length_append
    rw [compile_of_derives (isAllowed_of_mem_joined ha ha') ((length_joined q c q').trans hl)
      (hq.joined c hq'), hcount]

/-- Groups of both queries change their numbers: the first gets another one, of its own
    height, behind it. -/
theorem compile_composed_nested_groups :
    compile "((a~)ORb~)AND(c~)".toList =
        .ok (.and (.or (.isFalse "a".toList) (.isFalse "b".toList)) (.isFalse "c".toList)) ∧
      compile "(d~)ORe==\")0\"".toList =
        .ok (.or (.isFalse "d".toList) (.equal "e".toList ")0".toList)) ∧
      compile "((a~)ORb~)AND(c~)OR((d~)ORe==\")0\")".toList =
        .ok (.or (.and (.or (.isFalse "a".toList) (.isFalse "b".toList)) (.isFalse "c".toList))
          (.or (.isFalse "d".toList) (.equal "e".toList ")0".toList))) := by
  have h : compile "((a~)ORb~)AND(c~)".toList =
      .ok (.and (.or (.isFalse "a".toList) (.isFalse "b".toList)) (.isFalse "c".toList)) := rfl
  have h' : compile "(d~)ORe==\")0\"".toList =
      .ok (.or (.isFalse "d".toList) (.equal "e".toList ")0".toList)) := rfl
  have hcomposed := compile_composed h h' (by decide +kernel) (by decide +kernel) (by decide)
  exact ⟨h, h', (hcomposed.2 .or).trans (if_pos (by decide))⟩

/-- A zero behind the first group makes no difference, but in parentheses behind another
    group it changes the number. -/
example : (compile "(a~)0".toList).toOption = some (.isFalse "a".toList) ∧
    compile (joined "(b~)".toList .and "(a~)0".toList) = .error (.unresolvedReference 2 10) :=
  ⟨rfl, rfl⟩

end Query

end RecordFilter
