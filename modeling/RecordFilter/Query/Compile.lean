/-
  Query.Compile — from query text to predicate.

  Blocks are built in order.  The operands of a block are joined strictly from
  left to right, `AND` and `OR` alike, and a reference stands for what the
  earlier block was built into.  Every block is used at most once: a reference
  takes the result out of its slot.

  * `build`: the predicate of a list of blocks;
  * `compile`: the predicate of a query.
-/
import RecordFilter.Query.Alphabet
import RecordFilter.Query.Chain
import RecordFilter.Query.Comparison

namespace RecordFilter

namespace Query

/-- The most comparisons that one query may hold. -/
def maxComparisons : Nat := 1024

/-- What the blocks so far were built into; a slot is empty once it was
    referred to. -/
abbrev Slots := List (Option Predicate)

/-- Takes the predicate out of a slot. -/
def Slots.take? (slots : Slots) (index : Nat) : Option (Predicate × Slots) :=
  match slots[index]? with
  | some (some p) => some (p, slots.set index none)
  | _ => none

/-- The predicate of an operand of the block that comes after `slots`. -/
def resolve (slots : Slots) : Operand → Except Error (Predicate × Slots)
  | .reference index =>
    match slots.take? index with
    | some r => .ok r
    | none => .error (.unresolvedReference slots.length index)
  | .comparison text =>
    match readComparison text with
    | .ok c => .ok (.leaf c, slots)
    | .error fault => .error (.invalidComparison text fault)

/-- Joins further operands to `left`, one after the other. -/
def joinAll (slots : Slots) (left : Predicate) :
    List (Combinator × Operand) → Except Error (Predicate × Slots)
  | [] => .ok (left, slots)
  | (c, operand) :: rest => do
    let (right, slots) ← resolve slots operand
    joinAll slots (.join left c right) rest

/-- The predicate of a chain: its operands joined from left to right. -/
def Chain.build (chain : Chain) (slots : Slots) : Except Error (Predicate × Slots) := do
  let (first, slots) ← resolve slots chain.first
  joinAll slots first chain.rest

/-- Builds further blocks; `used` comparisons were counted before.  A block
    that brings the count above the limit is not looked at. -/
def buildAll (slots : Slots) (used : Nat) : List Text → Except Error Slots
  | [] => .ok slots
  | block :: blocks => do
    let chain := Chain.ofText block
    let used := used + chain.comparisonCount
    if used > maxComparisons then throw (.tooManyComparisons maxComparisons)
    let (p, slots) ← chain.build slots
    buildAll (slots ++ [some p]) used blocks

/-- The predicate of a list of blocks: what the last one was built into. -/
def build (blocks : List Text) : Except Error Predicate := do
  let slots ← buildAll [] 0 blocks
  match slots.getLast? with
  | some (some p) => .ok p
  | _ => .error .empty

/-- The blocks of a query of allowed characters. -/
def resolveBlocks (query : Text) : Except Error (List Text) := do
  if query = [] then throw .empty
  validate query
  extract query

/-- The predicate of a query. -/
def compile (query : Text) : Except Error Predicate := do
  build (← resolveBlocks query)

end Query

end RecordFilter
