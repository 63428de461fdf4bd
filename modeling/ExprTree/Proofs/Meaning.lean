import ExprTree.Proofs.Flattening
import ExprTree.Proofs.Tree.Value

/-!
# Flattening keeps meanings

Under every interpretation, flattening leaves each node of the expression with the value
it had, above the flattened node and elsewhere as well as beneath it. The only exception
are the nodes that are spliced away: they lie beneath the flattened node, their parent is
the same operator, and they are left alone.
-/

namespace ExprTree

universe u

/-- Flattening a part of a subtree keeps the value of the whole. -/
theorem Subtree.value_flatAt {α : Type u} (I : Interpretation α) (target : NodeId) (t : Subtree) :
    (t.flatAt target).tree.value I = t.tree.value I := by
  induction t with
  | node id content children ih =>
    by_cases hid : id = target
    · subst hid
      have hself := flatAt_self (node id content children)
      rw [id_node] at hself
      rw [hself, tree_flat, Tree.value_flat]
    · rw [flatAt_node_of_ne hid]
      cases content with
      | literal l => rw [tree_literal, tree_literal]
      | compound kind =>
        have hchildren : ((children.map (flatAt target)).map tree).map (Tree.value I) =
            (children.map tree).map (Tree.value I) := by
          rw [List.map_map, List.map_map, List.map_map]
          exact List.map_congr_left ih
        rw [tree_compound, tree_compound, Tree.value_compound, Tree.value_compound, hchildren]

namespace Expression

/-- The node lies beneath `id`, and its parent absorbs it. -/
def Spliced (e : Expression) (id i : NodeId) : Prop :=
  ∃ parent way outer inner, e.parent i = .ok (some parent) ∧ e.ancestors parent = .ok way ∧
    id ∈ way ∧ e.content parent = .ok outer ∧ e.content i = .ok inner ∧
    outer.absorbs inner = true

/-- The spliced nodes are those that flattening removes from the subtree. -/
theorem Forest.spliced_iff {e : Expression} (hf : e.Forest) {parent : Option NodeId} {t : Subtree}
    (ht : e.Stored parent t) {i : NodeId} : e.Spliced t.id i ↔ i ∈ t.removed := by
  rw [Subtree.mem_removed_iff]
  constructor
  · rintro ⟨above, way, outer, inner, hparent, hway, hmem, houter, hinner, habsorbs⟩
    obtain ⟨node, hnode, rfl⟩ := exists_node?_of_content hinner
    obtain ⟨node', hnode', rfl⟩ := exists_node?_of_content houter
    rw [parent_ok hnode, Except.ok.injEq] at hparent
    obtain ⟨way', hway'⟩ := hf.grounded above
    obtain rfl := Except.ok.inj ((hf.ancestors_eq hway' ⟨_, hnode'⟩).symm.trans hway)
    obtain ⟨outer, hpart, rfl⟩ := Subtree.exists_partOf ((hf.mem_ids_iff ht hway').mpr hmem)
    obtain ⟨_, hstored⟩ := ht.of_partOf hpart
    have hlink := hf.agree.mpr ((parentOf_eq hnode).trans hparent)
    rw [hstored.childrenOf_id] at hlink
    obtain ⟨child, hchild, rfl⟩ := List.mem_map.mp hlink
    obtain rfl := Option.some.inj (hnode.symm.trans (hstored.child hchild).node?_eq)
    obtain rfl := Option.some.inj (hnode'.symm.trans hstored.node?_eq)
    exact ⟨outer, hpart, child, hchild, habsorbs, rfl⟩
  · rintro ⟨outer, houter, child, hchild, habsorbs, rfl⟩
    obtain ⟨above, hstored⟩ := ht.of_partOf houter
    obtain ⟨way, hway⟩ := hf.grounded outer.id
    have hnode := hstored.node?_eq
    have hchildNode := (hstored.child hchild).node?_eq
    exact ⟨outer.id, way, outer.content, child.content, parent_ok hchildNode,
      hf.ancestors_eq hway ⟨_, hnode⟩, (hf.mem_ids_iff ht hway).mp houter.id_mem_ids,
      content_ok hnode, content_ok hchildNode, habsorbs⟩

/-- What flattening beneath `id` does to meanings, when it turns `e` into `e'`. -/
structure KeepsMeaning {α : Type u} (I : Interpretation α) (id : NodeId) (e e' : Expression) :
    Prop where
  value : ∀ i, i.index < e.size → ¬ e.Spliced id i → ∃ before after, e.tree i = .ok before ∧
    e'.tree i = .ok after ∧ after.value I = before.value I
  spliced : ∀ i, e.Spliced id i →
    ∃ content, e.content i = .ok content ∧ e'.node i = .ok (Node.detached content)
  literals : ∃ before after, e.literals id = .ok before ∧ e'.literals id = .ok after ∧
    after.Perm before

end Expression

namespace Edit

/-- A node that is not removed is flattened with the subtree it lies in, or has that subtree
flattened within its own. -/
theorem Flattened.exists_value {α : Type u} (I : Interpretation α) {draft draft' : Draft}
    {parent above : Option NodeId} {s t : Subtree} (h : Flattened draft draft' parent t)
    (hf' : draft'.Forest) (ht : draft.Stored parent t) (hs : draft.Stored above s)
    (hkept : s.id ∉ t.removed) :
    ∃ after, draft'.tree s.id = .ok after ∧ after.value I = s.tree.value I := by
  by_cases hmem : s.id ∈ t.ids
  · obtain ⟨_, hstored⟩ := h.exists_stored_of_partOf (hs.partOf_of_mem ht hmem) hkept
    have hafter := hf'.tree_eq hstored
    rw [Subtree.id_flat] at hafter
    exact ⟨_, hafter, by rw [Subtree.tree_flat, Tree.value_flat]⟩
  · have hstored := h.stored_flatAt ht hs fun hmem' => absurd hmem' hmem
    have hafter := hf'.tree_eq hstored
    rw [Subtree.id_flatAt] at hafter
    exact ⟨_, hafter, Subtree.value_flatAt I t.id s⟩

theorem keepsMeaning_flattenBeneath {α : Type u} (I : Interpretation α) {draft : Draft}
    (hf : draft.Forest) {id : NodeId} (hid : id.index < draft.size) :
    ∃ draft', flattenBeneath id draft = .ok () draft' ∧
      Expression.KeepsMeaning I id draft.toExpression draft'.toExpression := by
  obtain ⟨t, rfl, ht, -, htree⟩ := hf.exists_tree (Expression.node?_isSome_iff.mpr hid)
  obtain ⟨draft', hrun, hflat, hf'⟩ := flattenBeneath_of_stored hf ht
  refine ⟨draft', hrun, ?_, ?_, ?_⟩
  · intro i hi hkept
    rw [hf.spliced_iff ht] at hkept
    obtain ⟨s, rfl, hs, -, hbefore⟩ := hf.exists_tree (Expression.node?_isSome_iff.mpr hi)
    obtain ⟨after, hafter, hvalue⟩ := hflat.exists_value I hf' ht hs hkept
    exact ⟨s.tree, after, hbefore, hafter, hvalue⟩
  · intro i hi
    obtain ⟨content, hnode⟩ := hflat.changed.detached i ((hf.spliced_iff ht).mp hi)
    have hcontent := hflat.changed.content i
    rw [hnode] at hcontent
    obtain ⟨node, hnode', rfl⟩ := Option.map_eq_some_iff.mp hcontent.symm
    exact ⟨_, Expression.content_ok hnode', Expression.node_ok_iff.mpr hnode⟩
  · exact ⟨_, _, Expression.literals_ok htree, Expression.literals_ok (hflat.tree_eq hf'),
      Tree.literals_perm_of_value (t.tree.value_flat _)⟩

end Edit

namespace Reachable

/-- Flattening keeps the value of every node that it does not splice away, whatever the
literals, the operators and the parentheses mean. -/
theorem flatten_keeps_meaning {α : Type u} (I : Interpretation α) {e : Expression}
    (h : Reachable e) (hroom : e.size ≤ 2 ^ 32) (log : Log) :
    (∀ id, id.index < e.size → ∃ draft, Edit.flattenBeneath id ⟨e, log⟩ = .ok () draft ∧
      Expression.KeepsMeaning I id e draft.toExpression) ∧
    ∃ draft, Edit.flatten ⟨e, log⟩ = .ok () draft ∧
      Expression.KeepsMeaning I e.root e draft.toExpression := by
  have hf : (Draft.mk e log).Forest := h.forest hroom
  refine ⟨fun id hid => Edit.keepsMeaning_flattenBeneath I hf hid, ?_⟩
  obtain ⟨draft, hrun, hkeeps⟩ := Edit.keepsMeaning_flattenBeneath I hf hf.root
  exact ⟨draft, hrun, hkeeps⟩

/-- Flattened, the sum of a sum holds the same literals in another order. -/
theorem flatten_keeps_meaning_of_sum :
    ∃ e draft before after, Reachable e ∧ e.size = 4 ∧ e.inline e.root = .ok "x+y" ∧
      Edit.flatten ⟨e, #[]⟩ = .ok () draft ∧ e.tree e.root = .ok before ∧
      draft.tree e.root = .ok after ∧ after.value .literals = before.value .literals := by
  obtain ⟨e, he, hsize, hroot, hparent, -, htree⟩ := exists_sum_in_sum
  obtain ⟨draft, hrun, hkeeps⟩ := (flatten_keeps_meaning .literals he (by omega) #[]).2
  have hkept : ¬ e.Spliced e.root e.root := by
    rintro ⟨_, _, _, _, hparent', -⟩
    rw [hroot, hparent] at hparent'
    cases hparent'
  have hin : e.root.index < e.size := by
    rw [hroot, hsize]
    decide
  obtain ⟨before, after, hbefore, hafter, hvalue⟩ := hkeeps.value e.root hin hkept
  exact ⟨e, draft, before, after, he, hsize, hroot ▸ Expression.inline_ok htree, hrun, hbefore,
    hafter, hvalue⟩

end Reachable
end ExprTree
