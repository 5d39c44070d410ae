/-
  Query.Alphabet — the characters that a query may hold.

  Queries arrive from outside, so everything but a small set of ASCII characters
  is refused before anything else is looked at: no blanks, no `$`, no quote
  other than `"`.

  * `isAllowed`: the set;
  * `validate`: the first character outside it, with its position.
-/
import RecordFilter.Query.Error

namespace RecordFilter

namespace Query

/-- The symbols allowed besides ASCII letters, digits and the underscore. -/
def symbols : Text := "=\"-:.<>()~!".toList

/-- Whether `c` may occur in a query. -/
def isAllowed (c : Char) : Bool := c.isAlphanum || c == '_' || decide (c ∈ symbols)

/-- The first character of `query` that is not allowed, with its position
    counted from `start`. -/
def firstInvalid (start : Nat) : Text → Option (Char × Nat)
  | [] => none
  | c :: query => if isAllowed c then firstInvalid (start + 1) query else some (c, start)

/-- Refuses a query with a character that is not allowed.  The empty query
    passes. -/
def validate (query : Text) : Except Error Unit :=
  match firstInvalid 0 query with
  | none => .ok ()
  | some (c, p) => .error (.invalidCharacter c p)

theorem firstInvalid_eq_none_iff {start : Nat} {query : Text} :
    firstInvalid start query = none ↔ ∀ c ∈ query, isAllowed c := by
  induction query generalizing start with
  | nil => simp [firstInvalid]
  | cons c q ih =>
    rw [firstInvalid]
    split
    · next h => simp [ih, h]
    · next h => simp [h]

theorem validate_eq_ok_iff {query : Text} :
    validate query = .ok () ↔ ∀ c ∈ query, isAllowed c := by
  rw [← @firstInvalid_eq_none_iff 0, validate]
  split <;> simp_all

end Query

end RecordFilter
