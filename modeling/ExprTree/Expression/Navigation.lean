import ExprTree.Expression.Basic
import ExprTree.TreePath

/-!
# Following paths

`resolve` goes down along a path and `pathTo` comes back up through the parents.
Where the children and the parents of an expression agree, the two undo each
other.
-/

namespace ExprTree.Expression

/-- Descends from `id` along the positions, unless one of them has no child. -/
def descend (e : Expression) (id : NodeId) : List UInt64 → Except Fault (Option NodeId)
  | [] => pure (some id)
  | position :: rest => do
    match (← e.children id)[position.toNat]? with
    | some child => e.descend child rest
    | none => pure none

/-- The node that the path leads to from the root. -/
def resolve (e : Expression) (path : TreePath) : Except Fault (Option NodeId) :=
  e.descend e.root path.entries

/-- Climbs from `id`, which is where `below` starts, to the root of the expression. -/
def climbWithin (e : Expression) : Nat → NodeId → List UInt64 → Except Fault (Option TreePath)
  | 0, _, _ => .error .tooDeep
  | steps + 1, id, below => do
    match ← e.parent id with
    | none => pure (if id = e.root then some ⟨below⟩ else none)
    | some parent =>
      match (← e.children parent).idxOf? id with
      | some position => e.climbWithin steps parent (UInt64.ofNat position :: below)
      | none => pure none

/-- The path from the root to `id`, unless `id` is not attached beneath the root. -/
def pathTo (e : Expression) (id : NodeId) : Except Fault (Option TreePath) :=
  e.climbWithin e.depthBound id []

end ExprTree.Expression
