import ExprTree.Proofs.Edit.Preserves
import ExprTree.Proofs.Expression.Forest

/-!
# Reordering children

Exchanging two children of a node permutes its list of children and changes
nothing else, so that all links stay as they are. A shift is such an exchange.
-/

namespace ExprTree

/-- The draft with other children of a node. -/
def Draft.arrange (draft : Draft) (parent : NodeId) (children : Array NodeId) : Draft :=
  draft.modify parent fun node => { node with children }

namespace Draft

variable {draft : Draft} {parent : NodeId} {children : Array NodeId} {node : Node}

theorem parentOf_arrange (id : NodeId) :
    (draft.arrange parent children).parentOf id = draft.parentOf id := by
  rw [Expression.parentOf, arrange, node?_modify, Expression.parentOf]
  split
  · cases draft.node? id <;> rfl
  · rfl

theorem mem_childrenOf_arrange (hnode : draft.node? parent = some node)
    (hperm : children.toList.Perm node.children.toList) {id child : NodeId} :
    child ∈ (draft.arrange parent children).childrenOf id ↔ child ∈ draft.childrenOf id := by
  by_cases hid : id = parent
  · subst hid
    have hself : (draft.arrange id children).node? id = some { node with children } := by
      rw [arrange, node?_modify_self, hnode]
      rfl
    rw [Expression.childrenOf_eq hself, Expression.childrenOf_eq hnode]
    exact hperm.mem_iff
  · rw [arrange, Expression.childrenOf_congr (node?_modify_of_ne hid)]

end Draft

/-- Children in another order make another forest. -/
theorem Expression.Forest.arrange {draft : Draft} (hf : draft.Forest) {parent : NodeId}
    {node : Node} (hnode : draft.node? parent = some node) {children : Array NodeId}
    (hperm : children.toList.Perm node.children.toList) :
    (draft.arrange parent children).Forest where
  root := by
    rw [Draft.arrange, Draft.size_modify]
    exact hf.root
  settled := by
    intro id node' hnode'
    by_cases hid : id = parent
    · subst hid
      rw [Draft.arrange, Draft.node?_modify_self, hnode] at hnode'
      obtain rfl := Option.some.inj hnode'
      have hsettled := hf.settled hnode
      refine ⟨hsettled.pending, ?_, hperm.nodup_iff.mpr hsettled.nodup⟩
      intro hleaf
      rw [hsettled.leaf hleaf] at hperm
      exact Array.toList_inj.mp hperm.eq_nil
    · rw [Draft.arrange, Draft.node?_modify_of_ne hid] at hnode'
      exact hf.settled hnode'
  agree := by
    intro above child
    rw [Draft.mem_childrenOf_arrange hnode hperm, Draft.parentOf_arrange]
    exact hf.agree
  grounded := by
    intro id
    obtain ⟨way, hway⟩ := hf.grounded id
    exact ⟨way, hway.congr Draft.parentOf_arrange⟩

namespace Edit

open Run

variable {draft : Draft} {parent first second : NodeId} {node : Node}

theorem swapChildren_of_le (h : draft.size ≤ parent.index) :
    swapChildren parent first second draft =
      .error (.fault (.indexOutOfBounds draft.size parent.index)) draft := by
  unfold swapChildren
  exact bind_of_error (lift_of_error (read_of_error (Expression.children_of_le h)))

theorem swapChildren_of_node (hnode : draft.node? parent = some node) :
    swapChildren parent first second draft =
      match node.children.finIdxOf? first, node.children.finIdxOf? second with
      | some i, some j => .ok () (draft.arrange parent (node.children.swap i j i.isLt j.isLt))
      | _, _ => .error .notAChild draft := by
  unfold swapChildren
  rw [bind_of_ok (lift_of_ok (read_of_ok (Expression.children_ok hnode)))]
  cases node.children.finIdxOf? first with
  | none => rfl
  | some i =>
    cases node.children.finIdxOf? second with
    | none => rfl
    | some j => exact lift_of_ok (update_eq hnode _)

/-- Two children at known positions exchange these. -/
theorem swapChildren_of_getElem? (hnode : draft.node? parent = some node) (hsettled : node.Settled)
    {i j : Nat} (hfirst : node.children[i]? = some first)
    (hsecond : node.children[j]? = some second) :
    swapChildren parent first second draft =
      .ok () (draft.arrange parent (node.children.swapIfInBounds i j)) := by
  obtain ⟨hi, hfoundFirst⟩ := hsettled.finIdxOf?_eq hfirst
  obtain ⟨hj, hfoundSecond⟩ := hsettled.finIdxOf?_eq hsecond
  rw [swapChildren_of_node hnode, hfoundFirst, hfoundSecond, Array.swapIfInBounds_def, dif_pos hi,
    dif_pos hj]

/-- Only children of the node can change places. -/
theorem swapChildren_of_not_mem (hparent : parent.index < draft.size)
    (h : first ∉ draft.childrenOf parent ∨ second ∉ draft.childrenOf parent) :
    swapChildren parent first second draft = .error .notAChild draft := by
  obtain ⟨node, hnode⟩ := Expression.node?_isSome_iff.mpr hparent
  rw [Expression.childrenOf_eq hnode] at h
  simp only [Array.mem_toList_iff] at h
  rw [swapChildren_of_node hnode]
  rcases h with h | h
  · rw [Array.finIdxOf?_eq_none_iff.mpr h]
  · rw [Array.finIdxOf?_eq_none_iff.mpr h]
    cases node.children.finIdxOf? first <;> rfl

/-- Exchanging children fails without a trace or permutes them. -/
theorem Preserves.swapChildren {P : Expression → Prop}
    (harrange : ∀ {draft : Draft} {parent : NodeId} {node : Node} {children : Array NodeId},
      draft.node? parent = some node → children.toList.Perm node.children.toList →
      P draft.toExpression → P (draft.arrange parent children).toExpression)
    (parent first second : NodeId) : Preserves P (swapChildren parent first second) := by
  intro draft hP
  by_cases hparent : parent.index < draft.size
  · obtain ⟨node, hnode⟩ := Expression.node?_isSome_iff.mpr hparent
    rw [swapChildren_of_node hnode]
    split
    · exact harrange hnode (Array.perm_iff_toList_perm.mp (Array.swap_perm _ _)) hP
    · exact hP
  · rwa [swapChildren_of_le (Nat.le_of_not_lt hparent)]

theorem forest_swapChildren (parent first second : NodeId) :
    Preserves Expression.Forest (swapChildren parent first second) :=
  .swapChildren (fun hnode hperm hf => hf.arrange hnode hperm) parent first second

theorem forest_shift (path : TreePath) (offset : Int64) :
    Preserves Expression.Forest (shift path offset) :=
  .shift forest_swapChildren path offset

end Edit
end ExprTree
