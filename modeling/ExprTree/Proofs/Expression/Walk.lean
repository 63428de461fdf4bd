import ExprTree.Proofs.Expression.Forest
import ExprTree.Proofs.Tree.Preorder

/-!
# Walks

A walk visits everything beneath a node, each node before its children and the children
from left to right. In a forest it never visits a node twice, and it visits the handles
of the stored subtree in their order. The postorder lists the same nodes, each after its
children.
-/

namespace ExprTree.Expression

/-- The nodes beneath `id` in the order of a walk, if there are at most the given number of
levels. -/
def walkWithin (e : Expression) : Nat → NodeId → Except Fault (List NodeId)
  | 0, _ => .error .tooDeep
  | levels + 1, id => do
    let below ← (← e.children id).toList.mapM (e.walkWithin levels)
    return id :: below.flatten

/-- The nodes beneath `id`, starting with `id` itself, in the order of a walk. -/
def walk (e : Expression) (id : NodeId) : Except Fault (List NodeId) :=
  e.walkWithin e.depthBound id

/-- The nodes beneath `id` in postorder, if there are at most the given number of levels. -/
def postorderWithin (e : Expression) : Nat → NodeId → Except Fault (List NodeId)
  | 0, _ => .error .tooDeep
  | levels + 1, id => do
    let below ← (← e.children id).toList.mapM (e.postorderWithin levels)
    return below.flatten ++ [id]

/-- The nodes beneath `id` in postorder, which ends with `id` itself. -/
def postorder (e : Expression) (id : NodeId) : Except Fault (List NodeId) :=
  e.postorderWithin e.depthBound id

variable {e : Expression} {parent : Option NodeId} {t : Subtree}

namespace Stored

theorem walkWithin_eq (h : e.Stored parent t) {levels : Nat} (hlevels : t.height ≤ levels) :
    e.walkWithin levels t.id = .ok t.ids := by
  induction h generalizing levels with
  | @node parent id content children hnode hleaf hchildren ih =>
    obtain ⟨levels, rfl⟩ : ∃ n, levels = n + 1 :=
      Nat.exists_eq_add_of_le' (Nat.le_trans (Subtree.height_pos _) hlevels)
    rw [Subtree.height_node_le_iff] at hlevels
    have hwalks := mapM_map_id fun child hchild => ih child hchild (hlevels child hchild)
    rw [Subtree.id_node, walkWithin, children_ok hnode]
    change (do
      let below ← (children.map Subtree.id).mapM (e.walkWithin levels)
      return id :: below.flatten) = _
    rw [hwalks, Subtree.ids_node, List.flatMap_def]
    rfl

/-- The walk beneath a node visits the subtree that is stored there. -/
theorem walk_eq (h : e.Stored parent t) (hnodup : t.ids.Nodup) : e.walk t.id = .ok t.ids :=
  h.walkWithin_eq (h.height_le hnodup)

/-- A view of the nodes along a walk that depends on the tree beneath each node and on its depth,
which `At` tells. -/
theorem map_ids {α : Type} {view : NodeId → α} {answer : Nat × Tree → α}
    (At : Nat → NodeId → Prop)
    (hdown : ∀ depth id child, At depth id → e.parentOf child = some id → At (depth + 1) child)
    (hview : ∀ depth above part, e.Stored above part → At depth part.id →
      view part.id = answer (depth, part.tree))
    (h : e.Stored parent t) {depth : Nat} (hdepth : At depth t.id) :
    t.ids.map view = (t.tree.preorder depth).map answer := by
  induction h generalizing depth with
  | @node parent id content children hnode hleaf hchildren ih =>
    have hself := hview depth parent _ (.node hnode hleaf hchildren) hdepth
    rw [Subtree.ids_node, List.map_cons]
    cases content with
    | literal l =>
      obtain rfl := hleaf rfl
      rw [Subtree.tree_literal] at hself ⊢
      rw [Tree.preorder_literal]
      exact congrArg (fun first => [first]) hself
    | compound kind =>
      rw [Subtree.tree_compound] at hself ⊢
      rw [Tree.preorder_compound, List.map_cons, ← hself, List.map_flatMap, List.flatMap_map,
        List.map_flatMap]
      refine congrArg (List.cons _) (List.flatMap_congr fun child hchild => ?_)
      exact ih child hchild (hdown depth id child.id hdepth (hchildren child hchild).parentOf_id)

theorem postorderWithin_eq (h : e.Stored parent t) {levels : Nat} (hlevels : t.height ≤ levels) :
    e.postorderWithin levels t.id = .ok t.postorder := by
  induction h generalizing levels with
  | @node parent id content children hnode hleaf hchildren ih =>
    obtain ⟨levels, rfl⟩ : ∃ n, levels = n + 1 :=
      Nat.exists_eq_add_of_le' (Nat.le_trans (Subtree.height_pos _) hlevels)
    rw [Subtree.height_node_le_iff] at hlevels
    have hbelow := mapM_map_id fun child hchild => ih child hchild (hlevels child hchild)
    rw [Subtree.id_node, postorderWithin, children_ok hnode]
    change (do
      let below ← (children.map Subtree.id).mapM (e.postorderWithin levels)
      return below.flatten ++ [id]) = _
    rw [hbelow, Subtree.postorder_node, List.flatMap_def]
    rfl

end Stored

theorem Forest.walk_eq (hf : e.Forest) (h : e.Stored parent t) : e.walk t.id = .ok t.ids :=
  h.walk_eq (hf.nodup_ids h)

theorem Forest.postorder_eq (hf : e.Forest) (h : e.Stored parent t) :
    e.postorder t.id = .ok t.postorder :=
  h.postorderWithin_eq (h.height_le (hf.nodup_ids h))

end ExprTree.Expression
