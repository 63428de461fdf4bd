import ExprTree.Proofs.Subtree

/-!
# Stored subtrees

`Stored` says that the nodes of an expression, with their links in both directions,
spell out a given subtree. What is stored depends on its own nodes only, so that
changes elsewhere do not matter, and is read as the tree that it spells out.
-/

namespace ExprTree

/-- What a node looks like between operations: nothing waits in it, and it has
different children, or none if it is a literal. -/
structure Node.Settled (node : Node) : Prop where
  pending : node.pending = Pending.empty
  leaf : node.content.isCompound = false → node.children = #[]
  nodup : node.children.toList.Nodup

/-- A child stands at one position only, which is where it is found. -/
theorem Node.Settled.finIdxOf?_eq {node : Node} (h : node.Settled) {i : Nat} {child : NodeId}
    (hchild : node.children[i]? = some child) :
    ∃ hi : i < node.children.size, node.children.finIdxOf? child = some ⟨i, hi⟩ := by
  obtain ⟨hi, rfl⟩ := Array.getElem?_eq_some_iff.mp hchild
  refine ⟨hi, Array.finIdxOf?_eq_some_iff.mpr ⟨rfl, ?_⟩⟩
  intro j hj hsame
  have hindex := (List.Nodup.getElem_inj_iff h.nodup).mp
    ((Array.getElem_toList _).trans (hsame.trans (Array.getElem_toList _).symm))
  exact absurd hindex (Nat.ne_of_lt hj)

theorem Node.settled_detached (content : Content) : (Node.detached content).Settled :=
  ⟨rfl, fun _ => rfl, List.nodup_nil⟩

namespace Expression

/-- The nodes of the expression spell out the subtree, beneath the given parent. -/
inductive Stored (e : Expression) : Option NodeId → Subtree → Prop where
  | node {parent : Option NodeId} {id : NodeId} {content : Content} {children : List Subtree} :
      e.node? id = some ⟨content, parent, (children.map Subtree.id).toArray, Pending.empty⟩ →
      (content.isCompound = false → children = []) →
      (∀ child ∈ children, Stored e (some id) child) →
      Stored e parent (.node id content children)

namespace Stored

variable {e e' : Expression} {parent parent' : Option NodeId} {t : Subtree}

theorem node?_eq (h : Stored e parent t) : e.node? t.id =
    some ⟨t.content, parent, (t.children.map Subtree.id).toArray, Pending.empty⟩ := by
  cases h with
  | node hnode _ _ => exact hnode

theorem child (h : Stored e parent t) {child : Subtree} (hchild : child ∈ t.children) :
    Stored e (some t.id) child := by
  cases h with
  | node _ _ hchildren => exact hchildren child hchild

theorem parentOf_id (h : Stored e parent t) : e.parentOf t.id = parent :=
  parentOf_eq h.node?_eq

theorem childrenOf_id (h : Stored e parent t) : e.childrenOf t.id = t.children.map Subtree.id := by
  rw [childrenOf_eq h.node?_eq]

/-- What is stored depends on its own nodes only. -/
theorem children_eq_empty_iff (h : Stored e parent t) :
    e.children t.id = .ok #[] ↔ t.tree.children = [] := by
  rw [children_ok h.node?_eq, Except.ok.injEq]
  cases h with
  | @node _ id content children _ hleaf _ =>
    cases content with
    | literal l => simp [hleaf rfl, Tree.children]
    | compound kind => simp [Tree.children]

theorem congr (h : Stored e parent t) (hsame : ∀ id ∈ t.ids, e'.node? id = e.node? id) :
    Stored e' parent t := by
  induction h with
  | node hnode hleaf _ ih =>
    refine .node ?_ hleaf ?_
    · exact (hsame _ (Subtree.id_mem_ids _)).trans hnode
    · intro child hchild
      apply ih child hchild
      intro id hid
      exact hsame id (Subtree.mem_ids_node.mpr (.inr ⟨child, hchild, hid⟩))

/-- The subtree says all there is to say about its nodes. -/
theorem node?_eq_node? (h : Stored e parent t) (h' : Stored e' parent t) {id : NodeId}
    (hid : id ∈ t.ids) : e'.node? id = e.node? id := by
  induction h with
  | @node parent root content children hnode _ _ ih =>
    obtain rfl | ⟨child, hchild, hid⟩ := Subtree.mem_ids_node.mp hid
    · exact h'.node?_eq.trans hnode.symm
    · exact ih child hchild (h'.child hchild) hid

/-- A subtree comes beneath another parent when its topmost node is told so. -/
theorem reparent (h : Stored e parent t)
    (hroot : e'.node? t.id = (e.node? t.id).map fun node => { node with parent := parent' })
    (hsame : ∀ id ∈ t.ids, id ≠ t.id → e'.node? id = e.node? id) (hnodup : t.ids.Nodup) :
    Stored e' parent' t := by
  cases h with
  | @node _ id content children hnode hleaf hchildren =>
    refine .node ?_ hleaf ?_
    · rw [Subtree.id_node] at hroot
      rw [hroot, hnode]
      rfl
    · intro child hchild
      apply (hchildren child hchild).congr
      intro i hi
      apply hsame i (Subtree.mem_ids_node.mpr (.inr ⟨child, hchild, hi⟩))
      rintro rfl
      rw [Subtree.ids_node, List.nodup_cons] at hnodup
      exact hnodup.1 (List.mem_flatMap.mpr ⟨child, hchild, hi⟩)

/-- Every node of a stored subtree has a stored subtree of its own, which is a part. -/
theorem exists_of_mem (h : Stored e parent t) {id : NodeId} (hid : id ∈ t.ids) :
    ∃ above part, Stored e above part ∧ part.id = id ∧ part.ids.Sublist t.ids := by
  induction h with
  | @node parent root content children hnode hleaf hchildren ih =>
    obtain rfl | ⟨child, hchild, hid⟩ := Subtree.mem_ids_node.mp hid
    · exact ⟨parent, _, .node hnode hleaf hchildren, rfl, List.Sublist.refl _⟩
    · obtain ⟨above, part, hpart, rfl, hsublist⟩ := ih child hchild hid
      exact ⟨above, part, hpart, rfl, hsublist.trans (Subtree.ids_sublist_of_mem hchild)⟩

/-- The children of a node of the subtree belong to the subtree and know their parent. -/
theorem of_mem_childrenOf (h : Stored e parent t) {id child : NodeId} (hid : id ∈ t.ids)
    (hchild : child ∈ e.childrenOf id) : child ∈ t.ids ∧ e.parentOf child = some id := by
  obtain ⟨above, part, hpart, rfl, hsublist⟩ := h.exists_of_mem hid
  rw [hpart.childrenOf_id] at hchild
  obtain ⟨sub, hsub, rfl⟩ := List.mem_map.mp hchild
  refine ⟨hsublist.subset ?_, (hpart.child hsub).parentOf_id⟩
  cases part
  exact (Subtree.ids_sublist_of_mem hsub).subset sub.id_mem_ids

/-- Every node of the subtree but the topmost is a child of another one. -/
theorem exists_parent (h : Stored e parent t) {id : NodeId} (hid : id ∈ t.ids) (hne : id ≠ t.id) :
    ∃ above ∈ t.ids, e.parentOf id = some above ∧ id ∈ e.childrenOf above := by
  induction h with
  | @node parent root content children hnode hleaf hchildren ih =>
    obtain rfl | ⟨child, hchild, hid⟩ := Subtree.mem_ids_node.mp hid
    · exact absurd rfl hne
    · by_cases hroot : id = child.id
      · subst hroot
        refine ⟨root, by simp, (hchildren child hchild).parentOf_id, ?_⟩
        rw [childrenOf_eq hnode]
        exact List.mem_map_of_mem hchild
      · obtain ⟨above, habove, hlinks⟩ := ih child hchild hid hroot
        exact ⟨above, Subtree.mem_ids_node.mpr (.inr ⟨child, hchild, habove⟩), hlinks⟩

theorem settled (h : Stored e parent t) (hnodup : t.ids.Nodup) {id : NodeId} {node : Node}
    (hid : id ∈ t.ids) (hnode : e.node? id = some node) : node.Settled := by
  obtain ⟨above, part, hpart, rfl, hsublist⟩ := h.exists_of_mem hid
  obtain rfl := Option.some.inj (hpart.node?_eq.symm.trans hnode)
  refine ⟨rfl, ?_, Subtree.nodup_children (hnodup.sublist hsublist)⟩
  intro hleaf
  cases hpart with
  | node _ hchildren _ => simp [hchildren hleaf]

/-- An expression has room for the subtrees that it stores. -/
theorem length_ids_le (h : Stored e parent t) (hnodup : t.ids.Nodup) : t.ids.length ≤ e.size := by
  apply length_le_size hnodup
  intro id hid
  obtain ⟨above, part, hpart, rfl, -⟩ := h.exists_of_mem hid
  exact ⟨_, hpart.node?_eq⟩

/-- No way down in a stored subtree is too long to be followed. -/
theorem height_le (h : Stored e parent t) (hnodup : t.ids.Nodup) : t.height ≤ e.depthBound :=
  (t.height_le_length_ids.trans (h.length_ids_le hnodup)).trans (Nat.le_succ _)

/-- A stored subtree has as many handles as its tree has nodes. -/
theorem length_ids (h : Stored e parent t) : t.ids.length = t.tree.size := by
  induction h with
  | @node parent id content children _ hleaf _ ih =>
    rw [Subtree.ids_node, List.length_cons, List.length_flatMap]
    cases content with
    | literal l =>
      obtain rfl := hleaf rfl
      rw [Subtree.tree_literal]
      rfl
    | compound kind =>
      rw [Subtree.tree_compound, Tree.size, Tree.sizeAll_eq, List.map_map, List.map_congr_left ih]
      rfl

/-! ## Reading -/

/-- A look-up that answers for each of the subtrees answers for the list of them. -/
theorem mapM_map_id {α : Type} {look : NodeId → Except Fault α} {answer : Subtree → α}
    {children : List Subtree} (hlook : ∀ child ∈ children, look child.id = .ok (answer child)) :
    (children.map Subtree.id).mapM look = .ok (children.map answer) := by
  induction children with
  | nil => rfl
  | cons child rest ih =>
    obtain ⟨hfirst, hrest⟩ := List.forall_mem_cons.mp hlook
    rw [List.map_cons, List.mapM_cons, hfirst, ih hrest]
    rfl

theorem treeWithin_eq (h : Stored e parent t) {levels : Nat} (hlevels : t.height ≤ levels) :
    e.treeWithin levels t.id = .ok t.tree := by
  induction h generalizing levels with
  | @node parent id content children hnode hleaf hchildren ih =>
    obtain ⟨levels, rfl⟩ : ∃ n, levels = n + 1 :=
      Nat.exists_eq_add_of_le' (Nat.le_trans (Subtree.height_pos _) hlevels)
    rw [Subtree.height_node_le_iff] at hlevels
    have hread := mapM_map_id fun child hchild => ih child hchild (hlevels child hchild)
    rw [Subtree.id_node, treeWithin, node_ok_iff.mpr hnode]
    cases content with
    | literal l =>
      rw [Subtree.tree_literal]
      rfl
    | compound kind =>
      rw [Subtree.tree_compound]
      change (do
        let below ← (children.map Subtree.id).mapM (e.treeWithin levels)
        pure (Tree.compound kind below)) = _
      rw [hread]
      rfl

/-- The tree beneath a node is the one that is stored there. -/
theorem tree_eq (h : Stored e parent t) (hnodup : t.ids.Nodup) : e.tree t.id = .ok t.tree :=
  h.treeWithin_eq (h.height_le hnodup)

end Stored

/-! ## What is shown of a tree -/

section View

variable {e : Expression} {id : NodeId} {tree : Tree}

theorem inline_ok (h : e.tree id = .ok tree) : e.inline id = .ok tree.inline := by
  rw [inline, h]
  rfl

theorem outline_ok (h : e.tree id = .ok tree) (indent : Nat) :
    e.outline id indent = .ok (tree.outline indent) := by
  rw [outline, h]
  rfl

theorem literals_ok (h : e.tree id = .ok tree) : e.literals id = .ok tree.literals := by
  rw [literals, h]
  rfl

end View

end Expression
end ExprTree
