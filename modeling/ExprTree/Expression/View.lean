import ExprTree.Expression.Basic
import ExprTree.Tree

/-!
# The tree beneath a node

`Expression.tree` reads the tree beneath a node as a value, following the
children. Everything that is shown of an expression is a function of that tree.
-/

namespace ExprTree.Expression

/-- The tree beneath `id`, if it has at most the given number of levels. -/
def treeWithin (e : Expression) : Nat → NodeId → Except Fault Tree
  | 0, _ => .error .tooDeep
  | levels + 1, id => do
    let node ← e.node id
    match node.content with
    | .literal l => pure (.literal l)
    | .compound kind => pure (.compound kind (← node.children.toList.mapM (e.treeWithin levels)))

def tree (e : Expression) (id : NodeId) : Except Fault Tree :=
  e.treeWithin e.depthBound id

def inline (e : Expression) (id : NodeId) : Except Fault String :=
  Tree.inline <$> e.tree id

def outline (e : Expression) (id : NodeId) (indent : Nat) : Except Fault String :=
  (·.outline indent) <$> e.tree id

/-- The literals beneath `id`, from left to right. -/
def literals (e : Expression) (id : NodeId) : Except Fault (List Literal) :=
  Tree.literals <$> e.tree id

end ExprTree.Expression
