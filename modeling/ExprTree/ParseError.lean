import ExprTree.Fault

/-!
# Rejected texts

The reasons for which a text is no expression. Each names the piece of text at
fault, without its blanks, and only a character outside of the alphabet is given
with its position in the text as it was written.
-/

namespace ExprTree

inductive ParseError where
  /-- A fragment without a digit or letter, such as the empty right side of `1+`. -/
  | noLiteral (fragment : String)
  /-- A fragment which is neither a literal nor wrapped, with no operator to split it at. -/
  | noOperator (fragment : String)
  | unbalancedParentheses (text : String)
  | unexpectedCharacter (character : Char) (position : Nat)
  deriving DecidableEq, Repr

def ParseError.message : ParseError → String
  | .noLiteral fragment => "no literal content in `" ++ fragment ++ "`"
  | .noOperator fragment => "cannot split `" ++ fragment ++ "` on an operator"
  | .unbalancedParentheses text => "unbalanced parentheses in `" ++ text ++ "`"
  | .unexpectedCharacter character position =>
    "unexpected character `" ++ character.toString ++ "` at position " ++ toString position

/-- How reading a text may end without an expression. -/
inductive ParseFailure where
  | rejected (error : ParseError)
  | fault (fault : Fault)
  deriving DecidableEq, Repr

def ParseFailure.message : ParseFailure → String
  | .rejected e => e.message
  | .fault f => f.message

end ExprTree
