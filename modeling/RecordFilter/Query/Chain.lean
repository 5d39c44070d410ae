/-
  Query.Chain — the operands of a block.

  A block is a chain of operands joined by the keywords `AND` and `OR`, which
  count wherever they stand outside quotes.

  * `cut`: the text cut at its keywords;
  * `Operand.ofText`: a reference to a block, or the text of a comparison;
  * `Chain.ofText`: the chain of a block.
-/
import RecordFilter.Predicate
import RecordFilter.Query.Block

namespace RecordFilter

namespace Query

/-- An operand of a block. -/
inductive Operand where
  /-- What an earlier block means. -/
  | reference (index : Nat)
  /-- A comparison, not yet read. -/
  | comparison (text : Text)
  deriving DecidableEq, Repr

/-- A sign followed by nothing but a numeral is a reference, unless the numeral
    is too large for an index; all else is the text of a comparison. -/
def Operand.ofText (t : Text) : Operand :=
  match t with
  | c :: digits =>
    if c = referenceSign then
      match Text.numeral? digits with
      | some i => .reference i
      | none => .comparison t
    else .comparison t
  | [] => .comparison t

/-- The text of an operand, the numeral of a reference without leading zeros. -/
def Operand.text : Operand → Text
  | reference i => Query.reference i
  | comparison t => t

/-- The text cut at the keywords outside quotes: the text before the first, and
    each keyword with the text up to the next.  `quoted` tells whether the text
    starts inside quotes. -/
def cut : Bool → Text → Text × List (Combinator × Text)
  | _, [] => ([], [])
  | quoted, '"' :: t => let (s, rest) := cut (!quoted) t; ('"' :: s, rest)
  | false, 'A' :: 'N' :: 'D' :: t => let (s, rest) := cut false t; ([], (.and, s) :: rest)
  | false, 'O' :: 'R' :: t => let (s, rest) := cut false t; ([], (.or, s) :: rest)
  | quoted, c :: t => let (s, rest) := cut quoted t; (c :: s, rest)

/-- Operands joined by keywords, to be read from left to right. -/
structure Chain where
  first : Operand
  rest : List (Combinator × Operand)
  deriving DecidableEq, Repr

namespace Chain

/-- The chain of a block text. -/
def ofText (t : Text) : Chain :=
  let (s, rest) := cut false t
  ⟨.ofText s, rest.map fun (c, s) => (c, .ofText s)⟩

/-- The operands, left to right. -/
def operands (c : Chain) : List Operand := c.first :: c.rest.map (·.2)

/-- The number of operands that are comparisons. -/
def comparisonCount (c : Chain) : Nat :=
  c.operands.countP fun
    | .comparison _ => true
    | .reference _ => false

end Chain

end Query

end RecordFilter
