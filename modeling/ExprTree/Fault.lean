/-!
# Faults

A fault is a misuse which the caller could have avoided: a node that is not
there, an attachment that makes no tree. It is kept apart from the failures which
are an answer in themselves, such as the rejection of a text. `tooDeep` is the
exhaustion of a bound on recursion, and `rangeOutOfBounds` the cutting of a text
outside of its ends; the operations choose their bounds and cuts so that neither
arises on a well-formed expression.
-/

namespace ExprTree

inductive Fault where
  | indexOutOfBounds (length index : Nat)
  | childOfLiteral
  | beneathItself
  | offsetOfRoot
  | offsetOutOfRange
  | rangeOutOfBounds
  | tooDeep
  deriving DecidableEq, Repr

def Fault.message : Fault → String
  | .indexOutOfBounds length index =>
    "index out of bounds: the len is " ++ toString length ++ " but the index is " ++ toString index
  | .childOfLiteral => "cannot add a child to a literal"
  | .beneathItself => "cannot add a node beneath itself"
  | .offsetOfRoot => "cannot offset root path"
  | .offsetOutOfRange => "path offset out of range"
  | .rangeOutOfBounds => "text range out of bounds"
  | .tooDeep => "recursion too deep"

end ExprTree
