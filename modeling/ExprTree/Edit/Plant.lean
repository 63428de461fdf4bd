import ExprTree.Edit.Basic
import ExprTree.Expression.View

/-!
# Planting trees

A tree becomes part of an expression node by node, each before its children and
the children from left to right. Planted into no nodes at all, it occupies the
positions from zero on in that order, with nothing left over.
-/

namespace ExprTree

namespace Edit

mutual

/-- Adds the nodes of a tree and gives the handle of its root, which stays detached. -/
def plant : Tree → Edit Fault NodeId
  | .literal l => insert (.literal l)
  | .compound kind children => do
    let id ← insert (.compound kind)
    plantAll id children
    return id

/-- Plants the trees one by one as children of `parent`. -/
def plantAll (parent : NodeId) : List Tree → Edit Fault Unit
  | [] => pure ()
  | tree :: rest => do
    addChild parent (← plant tree)
    plantAll parent rest

end

end Edit

namespace Expression

/-- The expression that consists of one tree and nothing else. -/
def ofTree (tree : Tree) : Except Fault Expression :=
  match Edit.plant tree ⟨empty, #[]⟩ with
  | .ok root draft => .ok { draft.toExpression with root }
  | .error fault _ => .error fault

/-- The tree beneath `id` as an expression of its own. -/
def copy (e : Expression) (id : NodeId) : Except Fault Expression := do
  ofTree (← e.tree id)

end Expression
end ExprTree
