import ExprTree.Proofs.Edit.Preserves
import ExprTree.Proofs.Expression.Forest

/-!
# Adding and attaching nodes

A node that is added stands alone, since no handle has referred to it before.
Attaching a node first takes it away from the parent it had. In a forest it fails
only for reasons that it finds before it writes anything, and the node comes with
everything beneath it, so that a forest remains.
-/

namespace ExprTree

namespace Draft

variable {draft : Draft} {content : Content}

theorem parentOf_add (id : NodeId) : (draft.add content).parentOf id = draft.parentOf id := by
  rw [Expression.parentOf, node?_add, Expression.parentOf]
  split
  · rename_i h
    rw [Expression.node?_eq_none_iff.mpr h.ge]
    rfl
  · rfl

theorem childrenOf_add (id : NodeId) :
    (draft.add content).childrenOf id = draft.childrenOf id := by
  rw [Expression.childrenOf, node?_add, Expression.childrenOf]
  split
  · rename_i h
    rw [Expression.node?_eq_none_iff.mpr h.ge]
    rfl
  · rfl

end Draft

theorem Expression.Forest.add {draft : Draft} (hf : draft.Forest) (content : Content) :
    (draft.add content).Forest where
  root := by
    rw [Draft.root_add, Draft.size_add]
    exact Nat.lt_succ_of_lt hf.root
  settled := by
    intro id node hnode
    rw [Draft.node?_add] at hnode
    split at hnode
    · obtain rfl := Option.some.inj hnode
      exact Node.settled_detached content
    · exact hf.settled hnode
  agree := by
    intro parent child
    rw [Draft.childrenOf_add, Draft.parentOf_add]
    exact hf.agree
  grounded := by
    intro id
    obtain ⟨way, hway⟩ := hf.grounded id
    exact ⟨way, hway.congr Draft.parentOf_add⟩

/-- The draft after `child` has left the children of its former parent, if it had one. -/
def Draft.leave (draft : Draft) (child : NodeId) : Option NodeId → Draft
  | none => draft
  | some former =>
    draft.modify former fun node => { node with children := node.children.filter (· != child) }

/-- The draft after `child` has become the last child of `parent`. -/
def Draft.attach (draft : Draft) (parent child : NodeId) : Draft :=
  (draft.modify parent fun node => { node with children := node.children.push child }).modify child
    fun node => { node with parent := some parent }

namespace Edit

open Run

section Run

variable {draft : Draft} {parent child : NodeId} {node childNode : Node} {way : List NodeId}

/-- The writing steps of `addChild`, with the parent that the child had before. -/
def relink (parent child : NodeId) (former : Option NodeId) : Edit Fault Unit := do
  if let some former := former then
    update former fun node => { node with children := node.children.filter (· != child) }
  update parent fun node => { node with children := node.children.push child }
  update child fun node => { node with parent := some parent }

theorem attach_eq (hnode : draft.node? parent = some node)
    (hchild : draft.node? child = some childNode) (hne : child ≠ parent) :
    relink parent child none draft = .ok () (draft.attach parent child) := by
  apply (bind_of_ok (update_eq hnode _)).trans
  exact update_eq ((Draft.node?_modify_of_ne hne).trans hchild) _

theorem relink_eq (hnode : draft.node? parent = some node)
    (hchild : draft.node? child = some childNode) (hne : child ≠ parent) (former : Option NodeId)
    (hformer : ∀ id, former = some id → ∃ node, draft.node? id = some node) :
    relink parent child former draft = .ok () ((draft.leave child former).attach parent child) := by
  cases former with
  | none => exact attach_eq hnode hchild hne
  | some former =>
    obtain ⟨formerNode, hformerNode⟩ := hformer former rfl
    have hleft : ∀ other node, draft.node? other = some node →
        ∃ node', (draft.leave child (some former)).node? other = some node' := by
      intro other node hother
      rw [Draft.leave, Draft.node?_modify]
      split <;> simp [hother]
    obtain ⟨node', hnode'⟩ := hleft parent node hnode
    obtain ⟨childNode', hchild'⟩ := hleft child childNode hchild
    exact (bind_of_ok (update_eq hformerNode _)).trans (attach_eq hnode' hchild' hne)

theorem addChild_of_le (h : draft.size ≤ parent.index) :
    addChild parent child draft = .error (.indexOutOfBounds draft.size parent.index) draft := by
  rw [addChild, bind_of_error (read_of_error (Expression.content_of_le h))]

theorem addChild_of_literal (hnode : draft.node? parent = some node)
    (hliteral : node.content.isCompound = false) :
    addChild parent child draft = .error .childOfLiteral draft := by
  rw [addChild, bind_of_ok (read_of_ok (Expression.content_ok hnode)), if_neg (by simp [hliteral])]
  rfl

theorem addChild_of_ancestors (hnode : draft.node? parent = some node)
    (hcompound : node.content.isCompound = true) (hway : draft.ancestors parent = .ok way) :
    addChild parent child draft =
      if child ∈ way then .error .beneathItself draft
      else (read (·.parent child) >>= relink parent child) draft := by
  rw [addChild, bind_of_ok (read_of_ok (Expression.content_ok hnode)), if_pos hcompound]
  apply (bind_of_ok (read_of_ok hway)).trans
  by_cases hmem : child ∈ way
  · rw [if_pos (by simpa using hmem), if_pos hmem]
    rfl
  · rw [if_neg (by simpa using hmem), if_neg hmem]
    rfl

theorem addChild_of_isCompound (hnode : draft.node? parent = some node)
    (hcompound : node.content.isCompound = true) (hway : draft.ancestors parent = .ok way)
    (hne : child ≠ parent) (hfree : child ∉ way) (hchild : draft.node? child = some childNode)
    (hformer : ∀ former, childNode.parent = some former → ∃ node, draft.node? former = some node) :
    addChild parent child draft =
      .ok () ((draft.leave child childNode.parent).attach parent child) := by
  rw [addChild_of_ancestors hnode hcompound hway, if_neg hfree,
    bind_of_ok (read_of_ok (Expression.parent_ok hchild))]
  exact relink_eq hnode hchild hne childNode.parent hformer

theorem addChild_of_child_le (hnode : draft.node? parent = some node)
    (hcompound : node.content.isCompound = true) (hway : draft.ancestors parent = .ok way)
    (hfree : child ∉ way) (h : draft.size ≤ child.index) :
    addChild parent child draft = .error (.indexOutOfBounds draft.size child.index) draft := by
  rw [addChild_of_ancestors hnode hcompound hway, if_neg hfree,
    bind_of_error (read_of_error (Expression.parent_of_le h))]

end Run

end Edit

namespace Draft

variable {draft : Draft} {parent child : NodeId}

/-- In a forest, nobody else has the child among its children. -/
theorem node?_leave (hf : draft.Forest) (other : NodeId) :
    (draft.leave child (draft.parentOf child)).node? other = (draft.node? other).map fun node =>
      { node with children := node.children.filter (· != child) } := by
  by_cases hformer : draft.parentOf child = some other
  · rw [hformer, leave, node?_modify_self]
  · have hsame : (draft.leave child (draft.parentOf child)).node? other = draft.node? other := by
      cases hparent : draft.parentOf child with
      | none => rfl
      | some former =>
        apply node?_modify_of_ne
        rintro rfl
        exact hformer hparent
    rw [hsame]
    cases hnode : draft.node? other with
    | none => rfl
    | some node =>
      have habsent : child ∉ node.children := by
        intro hmem
        apply hformer
        apply hf.agree.mp
        rw [Expression.childrenOf_eq hnode]
        simpa using hmem
      have hfilter : node.children.filter (· != child) = node.children := by
        rw [Array.filter_eq_self]
        intro id hid
        simp only [bne_iff_ne]
        rintro rfl
        exact habsent hid
      simp [hfilter]

theorem node?_attach (hne : child ≠ parent) (other : NodeId) :
    (draft.attach parent child).node? other = (draft.node? other).map fun node =>
      { node with
        parent := if other = child then some parent else node.parent
        children := if other = parent then node.children.push child else node.children } := by
  rw [attach, node?_modify, node?_modify]
  by_cases hchild : other = child
  · subst hchild
    simp [hne]
  · by_cases hparent : other = parent
    · subst hparent
      simp [hchild]
    · simp [hchild, hparent]

@[simp] theorem size_attach : (draft.attach parent child).size = draft.size := by
  rw [attach, size_modify, size_modify]

/-- The child moved beneath its new parent. -/
def moved (draft : Draft) (parent child : NodeId) : Draft :=
  (draft.leave child (draft.parentOf child)).attach parent child

@[simp] theorem root_moved : (draft.moved parent child).root = draft.root := by
  rw [moved]
  cases draft.parentOf child <;> rfl

@[simp] theorem size_moved : (draft.moved parent child).size = draft.size := by
  rw [moved, size_attach]
  cases draft.parentOf child with
  | none => rfl
  | some former => exact size_modify

theorem node?_moved (hf : draft.Forest) (hne : child ≠ parent) (other : NodeId) :
    (draft.moved parent child).node? other = (draft.node? other).map fun node =>
      { node with
        parent := if other = child then some parent else node.parent
        children :=
          if other = parent then (node.children.filter (· != child)).push child
          else node.children.filter (· != child) } := by
  rw [moved, node?_attach hne, node?_leave hf, Option.map_map]
  rfl

theorem parentOf_moved (hf : draft.Forest) (hne : child ≠ parent)
    (hchild : ∃ node, draft.node? child = some node) (other : NodeId) :
    (draft.moved parent child).parentOf other =
      if other = child then some parent else draft.parentOf other := by
  rw [Expression.parentOf, node?_moved hf hne, Expression.parentOf]
  split
  · rename_i h
    subst h
    obtain ⟨node, hnode⟩ := hchild
    simp [hnode]
  · cases draft.node? other <;> rfl

theorem mem_childrenOf_moved (hf : draft.Forest) (hne : child ≠ parent)
    (hparent : ∃ node, draft.node? parent = some node) {above other : NodeId} :
    other ∈ (draft.moved parent child).childrenOf above ↔
      if other = child then above = parent else other ∈ draft.childrenOf above := by
  rw [Expression.childrenOf, node?_moved hf hne, Expression.childrenOf]
  cases hnode : draft.node? above with
  | none =>
    have hne' : above ≠ parent := by
      rintro rfl
      obtain ⟨node, hnode'⟩ := hparent
      simp [hnode] at hnode'
    split <;> simp [hne']
  | some node =>
    by_cases habove : above = parent
    · by_cases hother : other = child <;> simp [habove, hother]
    · by_cases hother : other = child <;> simp [habove, hother]

end Draft

/-- Moving a node, with everything beneath it, to a place that is not beneath it leaves a
forest. -/
theorem Expression.Forest.moved {draft : Draft} (hf : draft.Forest) {parent child : NodeId}
    {node : Node} {way : List NodeId} (hparent : draft.node? parent = some node)
    (hcompound : node.content.isCompound = true) (hway : draft.Ascends parent way)
    (hfree : child ∉ way) (hchild : ∃ node, draft.node? child = some node) :
    (draft.moved parent child).Forest := by
  have hne : child ≠ parent := fun h => hfree (h ▸ hway.self_mem)
  have hparentOf := Draft.parentOf_moved hf hne hchild
  have hclimb : ∀ {id : NodeId} {way : List NodeId}, draft.Ascends id way → child ∉ way →
      (draft.moved parent child).Ascends id way := by
    intro id way hway hfree
    induction hway with
    | top hnone =>
      apply Ascends.top
      rw [hparentOf, if_neg (by rintro rfl; simp at hfree), hnone]
    | step hstep _ ih =>
      rw [List.mem_cons, not_or] at hfree
      refine .step ?_ (ih hfree.2)
      rw [hparentOf, if_neg (Ne.symm hfree.1), hstep]
  refine ⟨?_, ?_, ?_, ?_⟩
  · rw [Draft.root_moved, Draft.size_moved]
    exact hf.root
  · intro id node' hnode'
    rw [Draft.node?_moved hf hne] at hnode'
    obtain ⟨old, hold, rfl⟩ := Option.map_eq_some_iff.mp hnode'
    have hsettled := hf.settled hold
    have hnodup : (old.children.filter (· != child)).toList.Nodup := by
      rw [Array.toList_filter]
      exact hsettled.nodup.filter _
    refine ⟨hsettled.pending, ?_, ?_⟩
    · intro hleaf
      have hid : id ≠ parent := by
        rintro rfl
        obtain rfl := Option.some.inj (hparent.symm.trans hold)
        simp [hcompound] at hleaf
      simp [hid, hsettled.leaf hleaf]
    · show (if _ then _ else _ : Array NodeId).toList.Nodup
      split
      · rw [Array.toList_push, List.nodup_append]
        exact ⟨hnodup, List.nodup_singleton _, by simp⟩
      · exact hnodup
  · intro above other
    rw [Draft.mem_childrenOf_moved hf hne ⟨node, hparent⟩, hparentOf]
    split
    · rw [Option.some.injEq, eq_comm]
    · exact hf.agree
  · intro id
    obtain ⟨old, hold⟩ := hf.grounded id
    induction hold with
    | @top id hnone =>
      by_cases hid : id = child
      · subst hid
        exact ⟨_, .step (by rw [hparentOf, if_pos rfl]) (hclimb hway hfree)⟩
      · exact ⟨_, .top (by rw [hparentOf, if_neg hid, hnone])⟩
    | @step id above _ hstep _ ih =>
      by_cases hid : id = child
      · subst hid
        exact ⟨_, .step (by rw [hparentOf, if_pos rfl]) (hclimb hway hfree)⟩
      · obtain ⟨rest, hrest⟩ := ih
        exact ⟨_, .step (by rw [hparentOf, if_neg hid, hstep]) hrest⟩

/-- What it takes to attach `child` to `parent`: a compound as the parent, which is neither the
child nor beneath it, and a child that is there. -/
structure Expression.Attachable (e : Expression) (parent child : NodeId) : Prop where
  compound : ∃ kind, e.content parent = .ok (.compound kind)
  free : ∃ way, e.ancestors parent = .ok way ∧ child ∉ way
  child : child.index < e.size

/-- A node is the first of its own ancestors. -/
theorem Expression.Forest.ne_of_attachable {e : Expression} (hf : e.Forest) {parent child : NodeId}
    (h : e.Attachable parent child) : child ≠ parent := by
  rintro rfl
  obtain ⟨way, hancestors, hfree⟩ := h.free
  obtain ⟨way', hway⟩ := hf.grounded child
  obtain rfl := Except.ok.inj
    ((hf.ancestors_eq hway (node?_isSome_iff.mpr h.child)).symm.trans hancestors)
  exact hfree hway.self_mem

namespace Edit

variable {draft : Draft} {parent child : NodeId}

theorem addChild_of_attachable (hf : draft.Forest) (h : draft.Attachable parent child) :
    addChild parent child draft = .ok () (draft.moved parent child) ∧
      (draft.moved parent child).Forest := by
  obtain ⟨kind, hkind⟩ := h.compound
  obtain ⟨way, hancestors, hfree⟩ := h.free
  obtain ⟨node, hnode, hcontent⟩ := Expression.exists_node?_of_content hkind
  obtain ⟨childNode, hchildNode⟩ := Expression.node?_isSome_iff.mpr h.child
  have hcompound : node.content.isCompound = true := by
    rw [hcontent]
    rfl
  obtain ⟨way', hway⟩ := hf.grounded parent
  obtain rfl := Except.ok.inj ((hf.ancestors_eq hway ⟨node, hnode⟩).symm.trans hancestors)
  refine ⟨?_, hf.moved hnode hcompound hway hfree ⟨_, hchildNode⟩⟩
  have hformer : childNode.parent = draft.parentOf child :=
    (Expression.parentOf_eq hchildNode).symm
  rw [addChild_of_isCompound hnode hcompound hancestors (hf.ne_of_attachable h) hfree hchildNode,
    hformer]
  · rfl
  · rw [hformer]
    exact fun former => hf.exists_node?_parent

/-- Attaching finds out what is wrong before it writes. -/
theorem addChild_of_not_attachable (hf : draft.Forest) (h : ¬ draft.Attachable parent child) :
    ∃ fault, addChild parent child draft = .error fault draft := by
  by_cases hparent : parent.index < draft.size
  · obtain ⟨node, hnode⟩ := Expression.node?_isSome_iff.mpr hparent
    obtain ⟨way, hway⟩ := hf.grounded parent
    have hancestors := hf.ancestors_eq hway ⟨node, hnode⟩
    cases hcontent : node.content with
    | literal l =>
      have hliteral : node.content.isCompound = false := by
        rw [hcontent]
        rfl
      exact ⟨_, addChild_of_literal hnode hliteral⟩
    | compound kind =>
      have hcompound : node.content.isCompound = true := by
        rw [hcontent]
        rfl
      by_cases hfree : child ∈ way
      · refine ⟨.beneathItself, ?_⟩
        rw [addChild_of_ancestors hnode hcompound hancestors, if_pos hfree]
      · have hchild : draft.size ≤ child.index := Nat.le_of_not_lt fun hchild =>
          h ⟨⟨kind, hcontent ▸ Expression.content_ok hnode⟩, ⟨way, hancestors, hfree⟩, hchild⟩
        exact ⟨_, addChild_of_child_le hnode hcompound hancestors hfree hchild⟩
  · exact ⟨_, addChild_of_le (Nat.le_of_not_lt hparent)⟩

theorem forest_addChild (parent child : NodeId) :
    Preserves Expression.Forest (addChild parent child) := by
  intro draft hf
  by_cases h : draft.Attachable parent child
  · obtain ⟨hrun, hforest⟩ := addChild_of_attachable hf h
    rwa [hrun]
  · obtain ⟨fault, herror⟩ := addChild_of_not_attachable hf h
    rwa [herror]

end Edit

end ExprTree
