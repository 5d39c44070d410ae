/-
  Query.Nest — a text with its parenthesized groups.

  Parentheses inside double quotes are ordinary characters; all others pair up.

  * `marks`: the text with its unquoted parentheses told apart;
  * `unbalanced?`: the position of the first parenthesis without a partner;
  * `Nest`: a text in which each group is one node, and `Nest.ofMarks`.
-/
import RecordFilter.Text

namespace RecordFilter

namespace Query

/-- A character of a query, or one of its unquoted parentheses. -/
inductive Mark where
  | char (c : Char)
  | opening
  | closing
  deriving DecidableEq, Repr

/-- The character that a mark stands for. -/
def Mark.toChar : Mark → Char
  | char c => c
  | opening => '('
  | closing => ')'

/-- The marks of a text; `quoted` tells whether it starts inside quotes. -/
def marks : Bool → Text → List Mark
  | _, [] => []
  | quoted, c :: t =>
    if c = '"' then .char c :: marks (!quoted) t
    else if quoted then .char c :: marks quoted t
    else if c = '(' then .opening :: marks quoted t
    else if c = ')' then .closing :: marks quoted t
    else .char c :: marks quoted t

/-- The position of the closing parenthesis that has no partner or, if all have
    one, of the leftmost opening one that has none.  `start` is the position of
    the first mark and `pending` holds those of the open parentheses, the
    innermost first. -/
def unbalanced? (start : Nat) (pending : List Nat) : List Mark → Option Nat
  | [] => pending.getLast?
  | .char _ :: ms => unbalanced? (start + 1) pending ms
  | .opening :: ms => unbalanced? (start + 1) (start :: pending) ms
  | .closing :: ms =>
    match pending with
    | [] => some start
    | _ :: pending => unbalanced? (start + 1) pending ms

/-- A text with groups.  Each group carries a label. -/
inductive Nest (α : Type) where
  | done
  | char (c : Char) (rest : Nest α)
  | group (label : α) (inner rest : Nest α)
  deriving DecidableEq, Repr

namespace Nest

variable {α β : Type}

/-- Puts a mark before the nests that are still open to its right, the
    innermost first.  Only balanced marks are put together, so the last case
    does not arise. -/
def push : Mark → List (Nest Unit) → List (Nest Unit)
  | .char c, n :: ns => .char c n :: ns
  | .closing, ns => .done :: ns
  | .opening, inner :: n :: ns => .group () inner n :: ns
  | _, ns => ns

/-- The groups of balanced marks. -/
def ofMarks (ms : List Mark) : Nest Unit := (ms.foldr push [.done]).headD .done

/-- The marks of a text with groups. -/
def toMarks : Nest α → List Mark
  | done => []
  | char c r => .char c :: r.toMarks
  | group _ i r => .opening :: i.toMarks ++ .closing :: r.toMarks

/-- The labels of all groups, by position of their opening parentheses. -/
def labels : Nest α → List α
  | done => []
  | char _ r => r.labels
  | group a i r => a :: i.labels ++ r.labels

/-- Labels each group with its height, and gives the height of the whole: zero
    if it has no group, else one more than its tallest group. -/
def heights : Nest α → Nest Nat × Nat
  | done => (done, 0)
  | char c r => let (r, h) := r.heights; (char c r, h)
  | group _ i r =>
    let (i, h) := i.heights
    let (r, h') := r.heights
    (group h i r, max (h + 1) h')

/-- Gives the groups new labels, by position of their opening parentheses, and
    returns the labels not used.  Without enough labels the old ones stay. -/
def relabel : Nest α → List α → Nest α × List α
  | done, ls => (done, ls)
  | char c r, ls => let (r, ls) := r.relabel ls; (char c r, ls)
  | group a i r, ls =>
    let (i, rest) := i.relabel ls.tail
    let (r, rest) := r.relabel rest
    (group (ls.headD a) i r, rest)

end Nest

end Query

end RecordFilter
