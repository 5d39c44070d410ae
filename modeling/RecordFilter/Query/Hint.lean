/-
  Query.Hint — the operator that was probably meant.

  * `hint`: the operator nearest to an unknown token, if it is near enough.
-/
import RecordFilter.Operator
import RecordFilter.Text.UpperCase
import RecordFilter.Text.EditDistance

namespace RecordFilter

namespace Query

/-- The number of edits that a hint may be away. -/
def maxHintDistance : Nat := 2

/-- The operator of least distance, the earlier one of two equally near. -/
def nearest (distance : Operator → Nat) (best : Operator) : List Operator → Operator
  | [] => best
  | op :: ops => nearest distance (if distance op < distance best then op else best) ops

/-- The operator nearest to `token` in upper case, unless it is that text
    itself, more than `maxHintDistance` edits away, or more edits away than half
    of the token's characters (rounded up). -/
def hint (token : Text) : Option Operator :=
  let distance := fun op : Operator => Text.editDistance token.upper op.token
  let best := nearest distance .equal Operator.all
  let limit := min maxHintDistance ((token.length + 1) / 2)
  if token ≠ [] ∧ 0 < distance best ∧ distance best ≤ limit then some best else none

end Query

end RecordFilter
