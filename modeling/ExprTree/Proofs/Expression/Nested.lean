import ExprTree.Proofs.Expression.Forest
import ExprTree.Proofs.Subtree.Part

/-!
# Nested subtrees

A node has one stored subtree only, so that a stored subtree has the stored subtrees of
all its nodes as parts. What lies in it are the nodes whose way up leads through its
topmost node. Two subtrees of a forest are nested or have no node in common.
-/

namespace ExprTree.Expression

namespace Stored

variable {e : Expression} {parent parent' : Option NodeId} {s t part : Subtree}

theorem of_partOf (h : e.Stored parent t) (hpart : part.PartOf t) :
    ∃ above, e.Stored above part := by
  induction hpart generalizing parent with
  | refl => exact ⟨parent, h⟩
  | step hchild _ ih => exact ih (h.child hchild)

private theorem eq_of_map_id {xs ys : List Subtree} (h : xs.map Subtree.id = ys.map Subtree.id)
    (hunique : ∀ x ∈ xs, ∀ y ∈ ys, x.id = y.id → x = y) : xs = ys := by
  induction xs generalizing ys with
  | nil => exact (List.map_eq_nil_iff.mp h.symm).symm
  | cons x xs ih =>
    obtain ⟨y, ys, rfl, hhead, htail⟩ := List.map_eq_cons_iff.mp h.symm
    rw [hunique x List.mem_cons_self y List.mem_cons_self hhead.symm, ih htail.symm]
    exact fun a ha b hb => hunique a (List.mem_cons_of_mem _ ha) b (List.mem_cons_of_mem _ hb)

/-- The subtree beneath a node is determined by the expression. -/
theorem unique (h : e.Stored parent s) (h' : e.Stored parent' t) (hid : s.id = t.id) : s = t := by
  induction h generalizing parent' t with
  | @node parent id content children hnode _ _ ih =>
    cases t with
    | node id' content' children' =>
      have hnode' := h'.node?_eq
      rw [← hid, Subtree.id_node, hnode, Option.some.injEq, Node.mk.injEq] at hnode'
      obtain ⟨rfl, -, hchildren, -⟩ := hnode'
      obtain rfl : id = id' := hid
      rw [eq_of_map_id (List.toArray_inj hchildren) fun x hx y hy => ih x hx (h'.child hy)]
      rfl

/-- The subtree of a node that lies in another subtree is a part of that one. -/
theorem partOf_of_mem (h : e.Stored parent s) (h' : e.Stored parent' t) (hid : s.id ∈ t.ids) :
    s.PartOf t := by
  obtain ⟨part, hpart, heq⟩ := Subtree.exists_partOf hid
  obtain ⟨above, hstored⟩ := h'.of_partOf hpart
  rwa [h.unique hstored heq.symm]

/-- If two subtrees have a node in common, then one of them lies in the other: going up from
that node leads to the top of one of them first. -/
theorem mem_or_mem (h : e.Stored parent s) (h' : e.Stored parent' t) {i : NodeId} (hs : i ∈ s.ids)
    (ht : i ∈ t.ids) : s.id ∈ t.ids ∨ t.id ∈ s.ids := by
  induction h with
  | @node parent id content children hnode hleaf hchildren ih =>
    obtain rfl | ⟨child, hchild, hi⟩ := Subtree.mem_ids_node.mp hs
    · exact .inl ht
    · cases ih child hchild hi with
      | inl hmem =>
        by_cases htop : child.id = t.id
        · exact .inr (htop ▸ Subtree.mem_ids_node.mpr (.inr ⟨child, hchild, child.id_mem_ids⟩))
        · obtain ⟨above, habove, hparent, -⟩ := h'.exists_parent hmem htop
          rw [(hchildren child hchild).parentOf_id, Option.some.injEq] at hparent
          exact .inl (hparent ▸ habove)
      | inr hmem => exact .inr (Subtree.mem_ids_node.mpr (.inr ⟨child, hchild, hmem⟩))

end Stored

/-- What lies in a subtree are the nodes whose way up leads through its topmost node. -/
theorem Forest.mem_ids_iff {e : Expression} (hf : e.Forest) {parent : Option NodeId} {t : Subtree}
    (h : e.Stored parent t) {i : NodeId} {way : List NodeId} (hway : e.Ascends i way) :
    i ∈ t.ids ↔ t.id ∈ way := by
  constructor
  · intro hi
    obtain ⟨above, habove⟩ := hf.grounded t.id
    obtain ⟨front, hfront⟩ := Ascends.of_stored h habove hi
    rw [hway.unique hfront]
    exact List.mem_append_right _ habove.self_mem
  · intro hmem
    induction hway with
    | top _ =>
      rw [← List.mem_singleton.mp hmem]
      exact t.id_mem_ids
    | step hparent _ ih =>
      rcases List.mem_cons.mp hmem with rfl | hmem
      · exact t.id_mem_ids
      · exact (h.of_mem_childrenOf (ih hmem) (hf.agree.mpr hparent)).1

end ExprTree.Expression
