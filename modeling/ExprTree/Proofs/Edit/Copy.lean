import ExprTree.Proofs.Edit.Plant

/-!
# Copying node by node

A copy can be made without reading a tree first: every node is added to the copy, attached
to the copy of its parent and only then followed by its own children. The copy grows as a
forest in which the new node always stands alone, so that attaching it never fails. In the
end the same nodes have been added in the same order as when the tree is planted.
-/

namespace ExprTree

namespace Edit

/-- Copies the node `child` of `e` beneath the node `target`, and then what is beneath it. -/
def copyChild (e : Expression) (beneath : NodeId → NodeId → Edit Fault Unit)
    (target child : NodeId) : Edit Fault Unit := do
  let copied ← insert (← ofExcept (e.content child))
  addChild target copied
  beneath child copied

/-- Copies what lies beneath the node `source` of `e` beneath the node `target`, if there are
at most the given number of levels. -/
def copyBeneath (e : Expression) : Nat → NodeId → NodeId → Edit Fault Unit
  | 0, _, _ => throw .tooDeep
  | levels + 1, source, target => do
    (← ofExcept (e.children source)).toList.forM (copyChild e (copyBeneath e levels) target)

/-- The expression that a run ends with, if it succeeds. -/
def built : EStateM.Result Fault Draft Unit → Except Fault Expression
  | .ok _ draft => .ok draft.toExpression
  | .error fault _ => .error fault

end Edit

/-- The tree beneath `id` as an expression of its own, copied node by node. -/
def Expression.copyByNodes (e : Expression) (id : NodeId) : Except Fault Expression := do
  let start := ofContent (← e.content id)
  Edit.built (Edit.copyBeneath e e.depthBound id start.root ⟨start, #[]⟩)

/-- The draft with a new node as the last child of `target`. -/
def Draft.extend (draft : Draft) (target : NodeId) (content : Content) : Draft :=
  (draft.add content).attach target (NodeId.ofIndex draft.size)

namespace Draft

variable {draft : Draft} {target id : NodeId} {node : Node}

@[simp] theorem size_extend (content : Content) :
    (draft.extend target content).size = draft.size + 1 := by
  rw [extend, size_attach, size_add]

theorem node?_extend_self (content : Content) (hnode : draft.node? target = some node)
    (hfits : draft.size < 2 ^ 32) :
    (draft.extend target content).node? (NodeId.ofIndex draft.size) =
      some { Node.detached content with parent := some target } := by
  have hne := Edit.ofIndex_size_ne hnode hfits
  rw [extend, node?_attach hne, node?_add_self content hfits]
  simp [hne]

theorem node?_extend_target (content : Content) (hnode : draft.node? target = some node)
    (hfits : draft.size < 2 ^ 32) :
    (draft.extend target content).node? target =
      some { node with children := node.children.push (NodeId.ofIndex draft.size) } := by
  have hne := Edit.ofIndex_size_ne hnode hfits
  rw [extend, node?_attach hne, node?_add_of_lt (Expression.index_lt hnode), hnode]
  simp [Ne.symm hne]

theorem node?_extend_of_lt (content : Content) (hid : id.index < draft.size) (hne : id ≠ target)
    (hnode : draft.node? target = some node) (hfits : draft.size < 2 ^ 32) :
    (draft.extend target content).node? id = draft.node? id := by
  have hnew := NodeId.ne_ofIndex hid hfits
  rw [extend, node?_attach (Edit.ofIndex_size_ne hnode hfits), node?_add_of_lt hid]
  simp [hne, hnew]

end Draft

namespace Edit

open Run

/-- A node that was just added stands alone, so that it can be attached to any compound. -/
theorem addChild_of_new {draft : Draft} (hf : draft.Forest) {target : NodeId} {node : Node}
    (hnode : draft.node? target = some node) (hcompound : node.content.isCompound = true)
    (content : Content) (hfits : draft.size < 2 ^ 32) :
    addChild target (NodeId.ofIndex draft.size) (draft.add content) =
        .ok () (draft.extend target content) ∧
      (draft.extend target content).Forest := by
  have hnew : (draft.add content).node? (NodeId.ofIndex draft.size) =
      some (Node.detached content) := Draft.node?_add_self content hfits
  have hnode' : (draft.add content).node? target = some node :=
    (Draft.node?_add_of_lt (Expression.index_lt hnode)).trans hnode
  obtain ⟨way, hway⟩ := hf.grounded target
  have hway' : (draft.add content).Ascends target way := hway.congr Draft.parentOf_add
  have hfree : NodeId.ofIndex draft.size ∉ way := by
    intro hmem
    obtain ⟨other, hother⟩ := hf.exists_node?_of_mem_way hway ⟨node, hnode⟩ hmem
    exact ofIndex_size_ne hother hfits rfl
  have hmoved : (draft.add content).moved target (NodeId.ofIndex draft.size) =
      draft.extend target content := by
    rw [Draft.moved, Expression.parentOf_eq hnew]
    rfl
  constructor
  · rw [addChild_of_isCompound hnode' hcompound
      ((hf.add content).ancestors_eq hway' ⟨node, hnode'⟩) (ofIndex_size_ne hnode hfits) hfree hnew
      (by simp [Node.detached])]
    rfl
  · rw [← hmoved]
    exact (hf.add content).moved hnode' hcompound hway' hfree ⟨_, hnew⟩

/-- A tree is planted as well by attaching its topmost node before planting the children
beneath it. -/
theorem PlantedAll.child {draft last : Draft} {target : NodeId} {node : Node} {tree : Tree}
    (h : PlantedAll (draft.extend target tree.content) last (NodeId.ofIndex draft.size)
      { Node.detached tree.content with parent := some target } tree.children)
    (hnode : draft.node? target = some node) (hfits : draft.size < 2 ^ 32) :
    PlantedAll draft last target node [tree] where
  root := h.root
  log := h.log
  size := by
    rw [h.size, Draft.size_extend, Tree.sizeAll, Tree.sizeAll, tree.size_eq]
    omega
  self := by
    have hlt := Expression.index_lt hnode
    rw [h.frame target (by rw [Draft.size_extend]; omega) (ofIndex_size_ne hnode hfits).symm,
      Draft.node?_extend_target _ hnode hfits]
    simp [Tree.numberAll, toArray_concat]
  stored := by
    have hstored := h.stored
    have hself := h.self
    rw [Draft.size_extend] at hstored hself
    rw [Tree.numberAll, Tree.numberAll, Tree.number_eq]
    refine List.forall_mem_singleton.mpr (.node hself ?_ hstored)
    intro hleaf
    rw [Tree.children_eq_nil hleaf, Tree.numberAll]
  frame id hid hne := by
    rw [h.frame id (by rw [Draft.size_extend]; omega) (NodeId.ne_ofIndex hid hfits),
      Draft.node?_extend_of_lt _ hid hne hnode hfits]

/-- Copying beneath the source plants the children of the subtree, wherever there is room. -/
def Copies (e : Expression) (levels : Nat) (t : Subtree) : Prop :=
  ∀ (draft : Draft) (target : NodeId) (node : Node), draft.Forest →
    draft.node? target = some node → node.content = t.content →
    draft.size + Tree.sizeAll t.tree.children ≤ 2 ^ 32 →
    ∃ draft', copyBeneath e levels t.id target draft = .ok () draft' ∧ draft'.Forest ∧
      PlantedAll draft draft' target node t.tree.children

section Copying

variable {e : Expression} {levels : Nat} {draft : Draft} {target : NodeId} {node : Node}

theorem Copies.child {parent : Option NodeId} {t : Subtree} (h : Copies e levels t)
    (hstored : e.Stored parent t) (hf : draft.Forest) (hnode : draft.node? target = some node)
    (hcompound : node.content.isCompound = true) (hroom : draft.size + t.tree.size ≤ 2 ^ 32) :
    ∃ draft', copyChild e (copyBeneath e levels) target t.id draft = .ok () draft' ∧
      draft'.Forest ∧ PlantedAll draft draft' target node [t.tree] := by
  rw [t.tree.size_eq] at hroom
  have hfits : draft.size < 2 ^ 32 := by omega
  obtain ⟨hattach, hf'⟩ := addChild_of_new hf hnode hcompound t.content hfits
  obtain ⟨draft', hrun, hforest, hplanted⟩ := h _ _ _ hf'
    (Draft.node?_extend_self t.content hnode hfits) rfl (by rw [Draft.size_extend]; omega)
  have hcontent : (ofExcept (e.content t.id) : Edit Fault Content) draft = .ok t.content draft := by
    rw [Expression.content_ok hstored.node?_eq]
    rfl
  refine ⟨draft', ?_, hforest, ?_⟩
  · exact (bind_of_ok hcontent).trans
      ((bind_of_ok (insert_eq _ draft)).trans ((bind_of_ok hattach).trans hrun))
  · rw [← t.content_tree] at hplanted
    exact hplanted.child hnode hfits

/-- The children are copied one after the other, each behind all that was copied before. -/
theorem copy_all {parent : Option NodeId} {children : List Subtree}
    (hstored : ∀ child ∈ children, e.Stored parent child)
    (hcopies : ∀ child ∈ children, Copies e levels child)
    (hf : draft.Forest) (hnode : draft.node? target = some node)
    (hcompound : node.content.isCompound = true)
    (hroom : draft.size + Tree.sizeAll (children.map Subtree.tree) ≤ 2 ^ 32) :
    ∃ draft', (children.map Subtree.id).forM (copyChild e (copyBeneath e levels) target) draft =
        .ok () draft' ∧
      draft'.Forest ∧ PlantedAll draft draft' target node (children.map Subtree.tree) := by
  induction children generalizing draft node with
  | nil => exact ⟨draft, rfl, hf, .nil hnode⟩
  | cons child rest ih =>
    rw [List.forall_mem_cons] at hstored hcopies
    rw [List.map_cons, Tree.sizeAll] at hroom
    obtain ⟨middle, hrun, hmiddle, hplanted⟩ :=
      hcopies.1.child hstored.1 hf hnode hcompound (by omega)
    have hsize := hplanted.size
    rw [Tree.sizeAll, Tree.sizeAll] at hsize
    obtain ⟨last, hruns, hlast, hrest⟩ :=
      ih hstored.2 hcopies.2 hmiddle hplanted.self hcompound (by omega)
    refine ⟨last, (bind_of_ok hrun).trans hruns, hlast, ?_⟩
    exact hplanted.append hrest (by rw [Tree.sizeAll, Tree.sizeAll]; omega)
      (Expression.index_lt hnode)

theorem copies_of_stored {parent : Option NodeId} {t : Subtree} (h : e.Stored parent t)
    (hlevels : t.height ≤ levels) : Copies e levels t := by
  induction h generalizing levels with
  | @node parent id content children hid hleaf hchildren ih =>
    intro draft target node hf hnode hcontent hroom
    obtain ⟨levels, rfl⟩ : ∃ n, levels = n + 1 :=
      Nat.exists_eq_add_of_le' (Nat.le_trans (Subtree.height_pos _) hlevels)
    rw [Subtree.height_node_le_iff] at hlevels
    have hread : (ofExcept (e.children id) : Edit Fault (Array NodeId)) draft =
        .ok (children.map Subtree.id).toArray draft := by
      rw [Expression.children_ok hid]
      rfl
    have hstep {draft' : Draft}
        (hrun : (children.map Subtree.id).forM (copyChild e (copyBeneath e levels) target) draft =
          .ok () draft') :
        copyBeneath e (levels + 1) id target draft = .ok () draft' :=
      (bind_of_ok hread).trans hrun
    cases content with
    | literal l =>
      obtain rfl := hleaf rfl
      exact ⟨draft, hstep rfl, hf, by simpa [Tree.children] using .nil hnode⟩
    | compound kind =>
      have hcompound : node.content.isCompound = true := by
        rw [hcontent]
        rfl
      rw [Subtree.tree_compound] at hroom ⊢
      obtain ⟨draft', hrun, hrest⟩ := copy_all hchildren
        (fun child hchild => ih child hchild (hlevels child hchild)) hf hnode hcompound hroom
      exact ⟨draft', hstep hrun, hrest⟩

end Copying

end Edit
end ExprTree
