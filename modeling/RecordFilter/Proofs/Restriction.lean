/-
  Proofs.Restriction — restrictions behind the queries of callers.

  A server that lets callers ask for some of the records only puts a restriction
  behind each query: `(query)AND(restriction)`.

  * `restricted`: a query with a restriction behind it;
  * `nestOf_restricted`: the restriction stays a group of its own;
  * `compile_restricted`: no query escapes the restriction behind it.
-/
import RecordFilter.Proofs.Evaluation
import RecordFilter.Proofs.Grammar

namespace RecordFilter

/-- AND selects the records that both sides select. -/
theorem Predicate.selects_and (l r : Predicate) (record : Json) :
    (l.and r).selects record = (l.selects record && r.selects record) := by
  simp only [selects_eq_holds]
  rfl

namespace Query

/-- A query with a restriction behind it. -/
def restricted (query restriction : Text) : Text :=
  '(' :: query ++ ")AND(".toList ++ restriction ++ [')']

theorem restricted_eq (q r : Text) : restricted q r =
    ('(' :: q ++ [')']) ++ (Combinator.and.keyword ++ ('(' :: r ++ [')'])) := by
  simp [restricted, Combinator.keyword]

/-- A query that leaves the restriction inside its quotes leaves the end inside
    quotes, too. -/
theorem quotedAfter_of_restricted {q r : Text} (hr : quotedAfter false r = false)
    (h : quotedAfter false (restricted q r) = false) : quotedAfter false q = false := by
  cases hq : quotedAfter false q with
  | false => rfl
  | true =>
    have hr' : quotedAfter true r = true := by
      have := quotedAfter_not false r
      rwa [hr] at this
    simp [restricted_eq, Combinator.keyword, quotedAfter, hq, hr'] at h

/-- A group behind a text, found again by its marks. -/
theorem exists_group_of_toMarks {α : Type} {n : Nest α} {w : Text} {l k : Nest Unit}
    (h : n.toMarks = (l.append ((Nest.ofText w).append (.group () k .done))).toMarks) :
    ∃ (n' : Nest α) (a : α) (m : Nest α),
      n = n'.append ((Nest.ofText w).append (.group a m .done)) ∧ n'.bare = l ∧ m.bare = k := by
  have hbare := Nest.bare_eq_of_toMarks h
  rw [Nest.bare_unit] at hbare
  obtain ⟨n', s, rfl, hn', hs⟩ := Nest.exists_append_of_bare hbare
  obtain ⟨u, g, rfl, hu, hg⟩ := Nest.exists_append_of_bare hs
  rw [Nest.bare_eq_ofText hu]
  cases g with
  | done => cases hg
  | char => cases hg
  | group a m d =>
    simp only [Nest.bare, Nest.map, Nest.group.injEq, true_and] at hg
    obtain ⟨rfl, hd⟩ := hg
    rw [show d = .done from Nest.bare_eq_ofText (t := []) hd]
    exact ⟨n', a, m, rfl, hn', rfl⟩

/-- **The restriction stays a group of its own**, whatever groups the query opens
    and closes. -/
theorem nestOf_restricted {q r : Text} (hb : Balanced (restricted q r)) (hr : Balanced r)
    (hq : quotedAfter false q = false) (hquote : quotedAfter false r = false) :
    ∃ (n : Nest Nat) (i : Nat) (m : Nest Nat),
      nestOf (restricted q r) =
        n.append ((Nest.ofText Combinator.and.keyword).append (.group i m .done)) ∧
      n.toMarks = marks false ('(' :: q ++ [')']) ∧ m.toMarks = marks false r := by
  obtain ⟨k, hk⟩ := hr
  have hgroup : quotedAfter false ('(' :: q ++ [')']) = false := by simp [quotedAfter, hq]
  have hmarks : marks false (restricted q r) = marks false ('(' :: q ++ [')']) ++
      ((Nest.ofText Combinator.and.keyword).append (.group () k .done)).toMarks := by
    rw [restricted_eq, marks_append false ('(' :: q ++ [')']), hgroup,
      marks_append false Combinator.and.keyword, quotedAfter_keyword, marks_keyword,
      marks_group hquote, Nest.toMarks_append, Nest.toMarks_ofText, ← hk]
    rfl
  -- what is before the restriction is balanced, as all and the restriction are
  have hbefore : ∃ l : Nest Unit, l.toMarks = marks false ('(' :: q ++ [')']) := by
    rw [← Nest.unbalanced?_eq_none_iff, ← Nest.unbalanced?_append_toMarks, ← hmarks,
      Nest.unbalanced?_eq_none_iff]
    exact hb
  obtain ⟨l, hl⟩ := hbefore
  have hwhole : (nestOf (restricted q r)).toMarks =
      (l.append ((Nest.ofText Combinator.and.keyword).append (.group () k .done))).toMarks := by
    rw [hb.toMarks_nestOf, hmarks, Nest.toMarks_append l, hl]
  obtain ⟨n, i, m, hn, rfl, rfl⟩ := exists_group_of_toMarks hwhole
  rw [Nest.bare, Nest.toMarks_map] at hl hk
  exact ⟨n, i, m, hn, hl, hk⟩

/-- **No query escapes the restriction behind it.**  Whatever the query is, if it
    compiles with the restriction behind it, then to something AND the restriction,
    and so it selects no record that the restriction does not select. -/
theorem compile_restricted {q r : Text} {p restriction : Predicate}
    (hr : compile r = .ok restriction) (h : compile (restricted q r) = .ok p) :
    (∃ x, p = .and x restriction) ∧
      ∀ record, p.selects record → restriction.selects record := by
  obtain ⟨-, hrb, hrr, -⟩ := compile_eq_ok_iff.1 hr
  obtain ⟨-, hb, hreads, -⟩ := compile_eq_ok_iff.1 h
  have hquote := hrr.regular.2
  have hend := hreads.regular.2
  rw [hrb.text_nestOf] at hquote
  rw [hb.text_nestOf] at hend
  have hq := quotedAfter_of_restricted hquote hend
  obtain ⟨n, i, m, hn, hnmarks, hmmarks⟩ := nestOf_restricted hb hrb hq hquote
  obtain ⟨htext, hregular⟩ := Nest.regular_of_toMarks hnmarks
  have hn' : quotedAfter false n.text = false := by
    rw [htext]
    simp [quotedAfter, hq]
  rw [hn] at hreads
  obtain ⟨x, y, -, hy, rfl⟩ := Nest.reads_append_keyword hregular hn' rfl hreads
  have hbare : m.bare = (nestOf r).bare :=
    Nest.bare_eq_of_toMarks (by rw [hmmarks, hrb.toMarks_nestOf])
  obtain rfl : y = restriction := hy.of_group.unique hrr hbare
  refine ⟨⟨x, rfl⟩, fun record hrecord => ?_⟩
  have hand := Predicate.selects_and x y record
  rw [Predicate.and, hrecord] at hand
  exact (Bool.and_eq_true_iff.1 hand.symm).2

/-- A query that closes its own group and opens another. -/
theorem compile_restricted_injection :
    compile "(c~)ORd==\")\"".toList =
        .ok (.or (.isFalse "c".toList) (.equal "d".toList ")".toList)) ∧
      compile (restricted "a~)OR(b~".toList "(c~)ORd==\")\"".toList) =
        .ok (.and (.or (.isFalse "a".toList) (.isFalse "b".toList))
          (.or (.isFalse "c".toList) (.equal "d".toList ")".toList))) ∧
      ∀ record, (Predicate.and (.or (.isFalse "a".toList) (.isFalse "b".toList))
          (.or (.isFalse "c".toList) (.equal "d".toList ")".toList))).selects record →
        (Predicate.or (.isFalse "c".toList) (.equal "d".toList ")".toList)).selects record :=
  ⟨rfl, rfl, (compile_restricted (q := "a~)OR(b~".toList) (r := "(c~)ORd==\")\"".toList)
    rfl rfl).2⟩

end Query

end RecordFilter
