/-
  Query.Block — the blocks that a query resolves into.

  Every parenthesized group becomes a block, its text with each direct inner
  group replaced by a reference `$i` to the block of that group.  Groups are
  numbered from the innermost out: by height, and by position among equals.
  The text outside all groups is the last block, so a block refers only to
  earlier ones.

  * `ranks`: the numbers of the groups, from their heights;
  * `blocks`: the block texts of a text with groups;
  * `extract`: the blocks of a query, or its unbalanced parenthesis.
-/
import RecordFilter.Query.Error
import RecordFilter.Query.Nest

namespace RecordFilter

namespace Query

/-- What a reference starts with. -/
def referenceSign : Char := '$'

/-- The text of the reference to a block. -/
def reference (index : Nat) : Text := referenceSign :: Text.ofNat index

/-- The place of each height among all: after the lower ones, and after the
    equal ones to its left. -/
def ranks (heights : List Nat) : List Nat :=
  heights.mapIdx fun i h =>
    heights.countP (· < h) + (heights.take i).countP (· == h)

namespace Nest

/-- The text with a reference in place of each group. -/
def blockText : Nest Nat → Text
  | done => []
  | char c r => c :: r.blockText
  | group i _ r => reference i ++ r.blockText

/-- All groups with their labels, by position of their opening parentheses. -/
def groups : Nest Nat → List (Nat × Nest Nat)
  | done => []
  | char _ r => r.groups
  | group i inner r => (i, inner) :: inner.groups ++ r.groups

/-- Labels each group with the number of its block. -/
def number (n : Nest Unit) : Nest Nat :=
  let labelled := n.heights.1
  (labelled.relabel (ranks labelled.labels)).1

/-- The block texts of a text whose groups carry their numbers. -/
def blocks (n : Nest Nat) : List Text :=
  let groups := n.groups
  (List.range groups.length).map (fun i => ((groups.lookup i).getD done).blockText)
    ++ [n.blockText]

end Nest

/-- The blocks of a query, in the order in which they refer to each other. -/
def extract (query : Text) : Except Error (List Text) :=
  let ms := marks false query
  match unbalanced? 0 [] ms with
  | some p => .error (.unbalancedParenthesis p)
  | none => .ok (Nest.ofMarks ms).number.blocks

example : (extract "(a~OR(b~))AND(\"(\")".toList).toOption =
    some ["b~".toList, "\"(\"".toList, "a~OR$0".toList, "$2AND$1".toList] := by decide +kernel

end Query

end RecordFilter
