import ExprTree.Proofs.Expression.Stored
import ExprTree.Proofs.Subtree.Part
import ExprTree.Proofs.Tree.Canonical
import Mathlib.Data.List.Perm.Basic

/-!
# Other orders of the children

An expression whose lists of children are permuted stores other subtrees in the same
places. They have the same nodes, so that they are canonical or flat if the former ones
were, and their literals come in another order.
-/

namespace ExprTree

open scoped List

namespace Subtree

/-- The first subtree is the second one with children in another order, at any depth. The
function says what becomes of the children before they change places. -/
inductive Reordered : Subtree → Subtree → Prop where
  | node {id : NodeId} {content : Content} {children order : List Subtree}
      {reorder : Subtree → Subtree} :
      (∀ child ∈ children, Reordered (reorder child) child) → order ~ children →
      Reordered (.node id content (order.map reorder)) (.node id content children)

namespace Reordered

variable {t' t : Subtree}

theorem id_eq (h : t'.Reordered t) : t'.id = t.id := by
  cases h
  rfl

theorem content_eq (h : t'.Reordered t) : t'.content = t.content := by
  cases h
  rfl

theorem canonical (h : t'.Reordered t) (hcanonical : t.tree.Canonical) : t'.tree.Canonical := by
  induction h with
  | @node id content children order reorder hbelow horder ih =>
    cases content with
    | literal l =>
      rw [tree_literal]
      exact .literal l
    | compound kind =>
      rw [tree_compound] at hcanonical ⊢
      generalize hsubtrees : children.map tree = subtrees at hcanonical
      cases hcanonical with
      | @parentheses inner hinner =>
        obtain ⟨child, rfl, rfl⟩ := List.map_eq_singleton_iff.mp hsubtrees
        obtain rfl := List.perm_singleton.mp horder
        exact .parentheses (ih child List.mem_cons_self hinner)
      | @operation operator subtrees htwo hadmits hcanonical =>
        -- Whether a child may stand in its place depends on its content only, not on the order.
        have hoperand : ∀ child ∈ (order.map reorder).map tree,
            operator.admits child.content = true ∧ child.Canonical := by
          rw [List.map_map]
          refine List.forall_mem_map.mpr fun child hchild => ?_
          have hmem := horder.subset hchild
          have hsubtree : child.tree ∈ subtrees := hsubtrees ▸ List.mem_map_of_mem hmem
          have hadmitted := hadmits _ hsubtree
          rw [content_tree, ← (hbelow child hmem).content_eq, ← content_tree] at hadmitted
          exact ⟨hadmitted, ih child hmem (hcanonical _ hsubtree)⟩
        refine .operation ?_ (fun child hchild => (hoperand child hchild).1)
          fun child hchild => (hoperand child hchild).2
        rw [List.length_map, List.length_map, horder.length_eq]
        rwa [← hsubtrees, List.length_map] at htwo

theorem literals_perm (h : t'.Reordered t) : t'.tree.literals ~ t.tree.literals := by
  induction h with
  | @node id content children order reorder hbelow horder ih =>
    cases content with
    | literal l => rw [tree_literal, tree_literal]
    | compound kind =>
      rw [tree_compound, tree_compound, Tree.literals_compound, Tree.literals_compound,
        List.flatMap_map, List.flatMap_map, List.flatMap_map]
      calc order.flatMap (fun child => (reorder child).tree.literals)
        _ ~ order.flatMap (fun child => child.tree.literals) :=
          List.Perm.flatMap_left _ fun child hchild => ih child (horder.subset hchild)
        _ ~ children.flatMap (fun child => child.tree.literals) := horder.flatMap_right _

theorem length_children (h : t'.Reordered t) : t'.children.length = t.children.length := by
  cases h with
  | node _ horder => simpa using horder.length_eq

/-- Whether a child is absorbed does not depend on the order. -/
theorem isFlat (h : t'.Reordered t) (hflat : t.IsFlat) : t'.IsFlat := by
  induction h with
  | @node id content children order reorder hbelow horder ih =>
    cases hflat with
    | node habsorbs hchildren =>
      refine .node (List.forall_mem_map.mpr ?_) (List.forall_mem_map.mpr ?_)
      · intro child hchild
        have hmem := horder.subset hchild
        rw [(hbelow child hmem).content_eq]
        exact habsorbs child hmem
      · intro child hchild
        have hmem := horder.subset hchild
        exact ih child hmem (hchildren child hmem)

theorem exists_partOf (h : t'.Reordered t) {part : Subtree} (hpart : part.PartOf t) :
    ∃ part' : Subtree, part'.PartOf t' ∧ part'.Reordered part := by
  induction hpart generalizing t' with
  | refl => exact ⟨t', .refl, h⟩
  | @step t child hchild _ ih =>
    cases h with
    | node hbelow horder =>
      obtain ⟨part', hpart', hreordered⟩ := ih (hbelow child hchild)
      exact ⟨part', .step (List.mem_map_of_mem (horder.symm.subset hchild)) hpart', hreordered⟩

end Reordered

instance : Inhabited Subtree :=
  ⟨.node ⟨0⟩ (.compound .parentheses) []⟩

end Subtree

namespace Expression

/-- The other expression has the same nodes with their children in another order. -/
def Permuted (e e' : Expression) : Prop :=
  ∀ id node, e.node? id = some node → ∃ children,
    e'.node? id = some { node with children } ∧ children.toList ~ node.children.toList

theorem Stored.exists_reordered {e e' : Expression} (hpermuted : e.Permuted e')
    {parent : Option NodeId} {t : Subtree} (h : e.Stored parent t) :
    ∃ t', e'.Stored parent t' ∧ t'.Reordered t := by
  induction h with
  | @node parent id content children hnode hleaf _ ih =>
    choose! reorder hstored hreordered using ih
    obtain ⟨ids, hnode', hperm⟩ := hpermuted id _ hnode
    -- The handles are permuted, and so the subtrees that they are the handles of.
    rw [List.toList_toArray, ← congrFun₂ (List.eq_map_comp_perm Subtree.id) ids.toList] at hperm
    obtain ⟨order, hids, horder⟩ := hperm
    have hmap : (order.map reorder).map Subtree.id = order.map Subtree.id := by
      rw [List.map_map]
      exact List.map_congr_left fun child hchild => (hreordered child (horder.subset hchild)).id_eq
    refine ⟨.node id content (order.map reorder), .node ?_ ?_ ?_, .node hreordered horder⟩
    · rw [hnode', hmap, ← hids]
    · intro hcontent
      rw [hleaf hcontent] at horder
      rw [horder.eq_nil, List.map_nil]
    · exact List.forall_mem_map.mpr fun child hchild => hstored child (horder.subset hchild)

end Expression
end ExprTree
