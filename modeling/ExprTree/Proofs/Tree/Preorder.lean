import ExprTree.Proofs.Tree.Basic

/-!
# Trees in preorder

The preorder lists a tree and all of its parts, each before its children and the children
from left to right, with the depth at which it stands.
-/

namespace ExprTree.Tree

/-- The tree, which stands at the given depth, and its parts. -/
def preorder (depth : Nat) : Tree → List (Nat × Tree)
  | .literal l => [(depth, .literal l)]
  | .compound kind children =>
    (depth, .compound kind children) :: children.flatMap (preorder (depth + 1))

@[simp] theorem preorder_literal (depth : Nat) (l : Literal) :
    (literal l).preorder depth = [(depth, .literal l)] := by
  rw [preorder]

@[simp] theorem preorder_compound (depth : Nat) (kind : Compound) (children : List Tree) :
    (compound kind children).preorder depth =
      (depth, .compound kind children) :: children.flatMap (preorder (depth + 1)) := by
  rw [preorder]

end ExprTree.Tree
