import ExprTree.Literal

/-!
# Contents of nodes

What a node holds, apart from its place in a tree: a literal, or a compound
whose meaning comes from its children. Sums and products take any number of
children, and so may parentheses, although only one is ever written.
-/

namespace ExprTree

inductive Operator where
  | add
  | multiply
  deriving DecidableEq, Repr

namespace Operator

def symbol : Operator → Char
  | .add => '+'
  | .multiply => '*'

/-- The kind of node which the operator builds. -/
def name : Operator → String
  | .add => "Additive"
  | .multiply => "Multiplicative"

end Operator

inductive Compound where
  | operation (operator : Operator)
  | parentheses
  deriving DecidableEq, Repr

namespace Compound

def token : Compound → String
  | .operation operator => operator.symbol.toString
  | .parentheses => "()"

/-- Whether `inner` says nothing new as a child of `outer`, since both are sums or
both are products. Parentheses stay even inside parentheses. -/
def absorbs : Compound → Compound → Bool
  | .operation outer, .operation inner => outer == inner
  | _, _ => false

end Compound

inductive Content where
  | literal (literal : Literal)
  | compound (kind : Compound)
  deriving DecidableEq

namespace Content

def isCompound : Content → Bool
  | .literal _ => false
  | .compound _ => true

def literal? : Content → Option Literal
  | .literal l => some l
  | .compound _ => none

def token? : Content → Option String
  | .literal _ => none
  | .compound kind => some kind.token

/-- The literal's own text, or the token of a compound. -/
def text : Content → String
  | .literal l => l.text
  | .compound kind => kind.token

def absorbs : Content → Content → Bool
  | .compound outer, .compound inner => outer.absorbs inner
  | _, _ => false

end Content
end ExprTree
