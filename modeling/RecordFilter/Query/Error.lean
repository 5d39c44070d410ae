/-
  Query.Error — why a query is refused.

  * `Query.Fault`: what is wrong with a single comparison;
  * `Query.Error`: what is wrong with a query, and `Error.message`, its wording;
  * `Error.isUserError`: whether the text of the query is to blame.
-/
import RecordFilter.Operator

namespace RecordFilter

namespace Query

/-- What is wrong with the text of a comparison. -/
inductive Fault where
  | missingName
  | openQuote
  /-- The text around the attribute is no operator; `hint` is a close one. -/
  | unknownOperator (token : Text) (hint : Option Operator)
  | wrongOperandCount (operator : Operator) (found : Nat)
  deriving DecidableEq, Repr

/-- The wording of a fault. -/
def Fault.message : Fault → Text
  | missingName => "missing attribute name".toList
  | openQuote => "unterminated quoted value".toList
  | unknownOperator token (some op) =>
    "unknown operator '".toList ++ token ++ "' (did you mean '".toList ++ op.token ++
      "'?)".toList
  | unknownOperator [] none => "missing operator".toList
  | unknownOperator token none => "unknown operator '".toList ++ token ++ "'".toList
  | wrongOperandCount op found =>
    "operator '".toList ++ op.token ++ "' takes ".toList ++ Text.ofNat op.arity ++
      " quoted value(s), found ".toList ++ Text.ofNat found

/-- Why a query, or a list of blocks, is refused. -/
inductive Error where
  | empty
  | invalidCharacter (character : Char) (position : Nat)
  | unbalancedParenthesis (position : Nat)
  | invalidComparison (text : Text) (fault : Fault)
  | tooManyComparisons (limit : Nat)
  /-- A block refers to a block that is not built yet or has been used already. -/
  | unresolvedReference (block index : Nat)
  deriving DecidableEq, Repr

namespace Error

/-- The wording of an error. -/
def message : Error → Text
  | empty => "query is empty".toList
  | invalidCharacter c p =>
    "invalid character '".toList ++ c :: "' at position ".toList ++ Text.ofNat p
  | unbalancedParenthesis p => "unbalanced parenthesis at position ".toList ++ Text.ofNat p
  | invalidComparison text fault =>
    "invalid comparison `".toList ++ text ++ "`: ".toList ++ fault.message
  | tooManyComparisons limit =>
    "query has more than ".toList ++ Text.ofNat limit ++ " comparisons".toList
  | unresolvedReference block index =>
    "block ".toList ++ Text.ofNat block ++ " references unresolved placeholder $".toList ++
      Text.ofNat index

/-- Whether the text of the query is to blame.  References are written by block
    extraction, so an unresolved one is a defect of the block list. -/
def isUserError : Error → Bool
  | unresolvedReference _ _ => false
  | _ => true

/-- The position in the query that the error points at. -/
def position? : Error → Option Nat
  | invalidCharacter _ p | unbalancedParenthesis p => some p
  | _ => none

end Error

end Query

end RecordFilter
