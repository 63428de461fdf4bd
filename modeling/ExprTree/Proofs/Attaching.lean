import ExprTree.Proofs.Expression.Nested
import ExprTree.Proofs.Reachable

/-!
# Attaching a node

A node is attached together with everything beneath it. It leaves the children of its former
parent and becomes the last child of the new one, and no other link changes. The new parent
does not lie beneath the node, so that the subtree is moved as it is, and every node is listed
among the children of others as often as before: once, if it has a parent.
-/

namespace ExprTree

open Run

/-- The node `child` has become the last child of `parent`, and nothing else is different. -/
structure Draft.Attached (draft draft' : Draft) (parent child : NodeId) : Prop where
  outer_eq : ∃ outer, draft.node parent = .ok outer ∧ draft'.node parent = .ok
    { outer with children := (outer.children.filter (· != child)).push child }
  former_eq : ∀ former, draft.parent child = .ok (some former) → former ≠ parent →
    ∃ node, draft.node former = .ok node ∧ draft'.node former = .ok
      { node with children := node.children.filter (· != child) }
  child_eq : ∃ inner, draft.node child = .ok inner ∧ draft'.node child = .ok
    { inner with parent := some parent }
  others : ∀ other, other ≠ parent → other ≠ child → draft.parent child ≠ .ok (some other) →
    draft'.node other = draft.node other
  root_eq : draft'.root = draft.root
  size_eq : draft'.size = draft.size
  log_eq : draft'.log = draft.log

/-! ## How often a node is listed -/

namespace Expression

/-- The children of all nodes, one list after the other. -/
def listed (e : Expression) : List NodeId :=
  e.nodes.toList.flatMap (·.children.toList)

variable {e : Expression} {id : NodeId}

theorem node?_ofIndex (hroom : e.size ≤ 2 ^ 32) {index : Nat} {node : Node}
    (hnode : e.nodes[index]? = some node) : e.node? (NodeId.ofIndex index) = some node := by
  obtain ⟨hindex, -⟩ := Array.getElem?_eq_some_iff.mp hnode
  rw [node?, NodeId.index_ofIndex (Nat.lt_of_lt_of_le hindex hroom), hnode]

namespace Forest

theorem parentOf_of_listed (hf : e.Forest) (hroom : e.size ≤ 2 ^ 32) {index : Nat} {node : Node}
    (hnode : e.nodes[index]? = some node) (hid : id ∈ node.children.toList) :
    e.parentOf id = some (NodeId.ofIndex index) := by
  apply hf.agree.mp
  rwa [childrenOf_eq (node?_ofIndex hroom hnode)]

theorem mem_listed_iff (hf : e.Forest) (hroom : e.size ≤ 2 ^ 32) :
    id ∈ e.listed ↔ ∃ parent, e.parentOf id = some parent := by
  rw [listed, List.mem_flatMap]
  constructor
  · rintro ⟨node, hnode, hid⟩
    obtain ⟨index, hindex⟩ := Array.mem_iff_getElem?.mp (Array.mem_toList_iff.mp hnode)
    exact ⟨NodeId.ofIndex index, hf.parentOf_of_listed hroom hindex hid⟩
  · rintro ⟨parent, hparent⟩
    obtain ⟨node, hnode, hid⟩ := exists_node?_of_mem_childrenOf (hf.agree.mpr hparent)
    exact ⟨node, (Array.mem_of_getElem? hnode).val, hid.val⟩

/-- No node is listed twice, be it by one node or by two. -/
theorem nodup_listed (hf : e.Forest) (hroom : e.size ≤ 2 ^ 32) : e.listed.Nodup := by
  refine List.nodup_flatMap.mpr ⟨?_, List.pairwise_iff_getElem.mpr ?_⟩
  · intro node hnode
    obtain ⟨index, hindex⟩ := Array.mem_iff_getElem?.mp (Array.mem_toList_iff.mp hnode)
    exact (hf.settled (node?_ofIndex hroom hindex)).nodup
  · intro i j hi hj hlt id hid hid'
    have hparent := hf.parentOf_of_listed hroom (Array.getElem?_eq_getElem hi) hid
    have hsame := congrArg NodeId.index
      (Option.some.inj (hparent.symm.trans
        (hf.parentOf_of_listed hroom (Array.getElem?_eq_getElem hj) hid')))
    rw [NodeId.index_ofIndex (hi.trans_le hroom), NodeId.index_ofIndex (hj.trans_le hroom)] at hsame
    exact absurd hsame (Nat.ne_of_lt hlt)

/-- A node is listed once, or not at all if it has no parent. -/
theorem count_listed (hf : e.Forest) (hroom : e.size ≤ 2 ^ 32) (id : NodeId) :
    e.listed.count id = if (e.parentOf id).isSome then 1 else 0 := by
  rw [(hf.nodup_listed hroom).count]
  exact if_congr ((hf.mem_listed_iff hroom).trans Option.isSome_iff_exists.symm) rfl rfl

theorem parentOf_ne (hf : e.Forest) (hid : id.index < e.size) : e.parentOf id ≠ some id := by
  intro hparent
  obtain ⟨t, rfl, hstored⟩ := hf.exists_stored (node?_isSome_iff.mpr hid)
  rw [hparent] at hstored
  exact hf.parent_not_mem hstored t.id_mem_ids

end Forest
end Expression

/-! ## The moved subtree and the others -/

theorem Expression.Attachable.exists_outer {e : Expression} {parent child : NodeId}
    (h : e.Attachable parent child) : ∃ outer, e.node? parent = some outer := by
  obtain ⟨kind, hkind⟩ := h.compound
  obtain ⟨outer, houter, -⟩ := exists_node?_of_content hkind
  exact ⟨outer, houter⟩

namespace Draft

variable {draft : Draft} {parent child : NodeId}

theorem node?_moved_of_ne {other : NodeId} (hparent : other ≠ parent) (hchild : other ≠ child)
    (hformer : draft.parentOf child ≠ some other) :
    (draft.moved parent child).node? other = draft.node? other := by
  rw [moved, attach, node?_modify_of_ne hchild, node?_modify_of_ne hparent]
  cases hsome : draft.parentOf child with
  | none => rfl
  | some former => exact node?_modify_of_ne fun heq => hformer (heq ▸ hsome)

theorem node?_moved_child (hf : draft.Forest) (hne : child ≠ parent)
    (hchild : child.index < draft.size) :
    (draft.moved parent child).node? child =
      (draft.node? child).map fun node => { node with parent := some parent } := by
  rw [moved, attach, node?_modify_self, node?_modify_of_ne hne]
  congr 1
  cases hsome : draft.parentOf child with
  | none => rfl
  | some former =>
    exact node?_modify_of_ne fun heq => hf.parentOf_ne hchild (hsome.trans (congrArg some heq.symm))

/-- A subtree with neither the old nor the new parent of the child in it stays as it is, even if
the child is its topmost node. -/
theorem exists_stored_moved (hf : draft.Forest) (hne : child ≠ parent)
    (hchild : child.index < draft.size) {above : Option NodeId} {t : Subtree}
    (hstored : draft.Stored above t) (hparent : parent ∉ t.ids)
    (hformer : ∀ former, draft.parentOf child = some former → former ∉ t.ids) :
    ∃ above', (draft.moved parent child).Stored above' t := by
  have hsame : ∀ i ∈ t.ids, i ≠ child →
      (draft.moved parent child).node? i = draft.node? i := fun i hi hne =>
    node?_moved_of_ne (fun heq => hparent (heq ▸ hi)) hne fun heq => hformer i heq hi
  by_cases htop : child = t.id
  · subst htop
    exact ⟨some parent, hstored.reparent (node?_moved_child hf hne hchild) hsame
      (hf.nodup_ids hstored)⟩
  · refine ⟨above, hstored.congr fun i hi => hsame i hi ?_⟩
    rintro rfl
    obtain ⟨former, hmem, hsome, -⟩ := hstored.exists_parent hi htop
    exact hformer former hsome hmem

/-- What lies beneath a node does not change unless the old or the new parent is part of it. -/
theorem exists_tree_moved (hf : draft.Forest) (h : draft.Attachable parent child)
    (hf' : (draft.moved parent child).Forest) {id : NodeId} (hid : id.index < draft.size)
    (hparent : ∀ way, draft.Ascends parent way → id ∉ way)
    (hformer : ∀ former way, draft.parentOf child = some former → draft.Ascends former way →
      id ∉ way) :
    ∃ tree, draft.tree id = .ok tree ∧ (draft.moved parent child).tree id = .ok tree := by
  obtain ⟨t, rfl, hstored, -, htree⟩ := hf.exists_tree (Expression.node?_isSome_iff.mpr hid)
  have hout : ∀ {i}, (∀ way, draft.Ascends i way → t.id ∉ way) → i ∉ t.ids := by
    intro i hways hi
    obtain ⟨way, hway⟩ := hf.grounded i
    exact hways way hway ((hf.mem_ids_iff hstored hway).mp hi)
  obtain ⟨above, hstored'⟩ := exists_stored_moved hf (hf.ne_of_attachable h) h.child hstored
    (hout hparent) fun former hsome => hout fun way => hformer former way hsome
  exact ⟨t.tree, htree, hf'.tree_eq hstored'⟩

/-- The child lies neither above its new parent, which is checked, nor above its old one. -/
theorem exists_tree_moved_child (hf : draft.Forest) (h : draft.Attachable parent child)
    (hf' : (draft.moved parent child).Forest) :
    ∃ tree, draft.tree child = .ok tree ∧ (draft.moved parent child).tree child = .ok tree := by
  refine exists_tree_moved hf h hf' h.child ?_ ?_
  · intro way hway
    obtain ⟨way', hancestors, hfree⟩ := h.free
    obtain rfl := Except.ok.inj ((hf.ancestors_eq hway h.exists_outer).symm.trans hancestors)
    exact hfree
  · intro former way hsome hway
    exact (List.nodup_cons.mp (Expression.Ascends.step hsome hway).nodup).1

theorem count_listed_moved (hf : draft.Forest) (hroom : draft.size ≤ 2 ^ 32)
    (h : draft.Attachable parent child) (hf' : (draft.moved parent child).Forest) (id : NodeId) :
    (draft.moved parent child).listed.count id =
      if id = child then 1 else draft.listed.count id := by
  rw [hf'.count_listed (size_moved.trans_le hroom), hf.count_listed hroom,
    parentOf_moved hf (hf.ne_of_attachable h) (Expression.node?_isSome_iff.mpr h.child)]
  by_cases hid : id = child <;> simp [hid]

theorem attached_moved (hf : draft.Forest) (h : draft.Attachable parent child) :
    draft.Attached (draft.moved parent child) parent child := by
  have hne := hf.ne_of_attachable h
  obtain ⟨outer, houter⟩ := h.exists_outer
  obtain ⟨inner, hinner⟩ := Expression.node?_isSome_iff.mpr h.child
  have hformer := Expression.parent_of_lt h.child
  refine ⟨⟨outer, ?_, ?_⟩, ?_, ⟨inner, ?_, ?_⟩, ?_, root_moved, size_moved, ?_⟩
  · exact Expression.node_ok_iff.mpr houter
  · rw [Expression.node_ok_iff, node?_moved hf hne, houter]
    simp [Ne.symm hne]
  · intro former hsome hother
    rw [hformer, Except.ok.injEq] at hsome
    obtain ⟨node, hnode⟩ := hf.exists_node?_parent hsome
    have hself : former ≠ child := fun heq => hf.parentOf_ne h.child (heq ▸ hsome)
    refine ⟨node, Expression.node_ok_iff.mpr hnode, ?_⟩
    rw [Expression.node_ok_iff, node?_moved hf hne, hnode]
    simp [hother, hself]
  · exact Expression.node_ok_iff.mpr hinner
  · rw [Expression.node_ok_iff, node?_moved_child hf hne h.child, hinner]
    rfl
  · intro other hparent hchild hsome
    rw [hformer, Ne, Except.ok.injEq] at hsome
    exact Expression.node_congr size_moved (node?_moved_of_ne hparent hchild hsome)
  · rw [moved]
    cases draft.parentOf child <;> rfl

end Draft

theorem Edit.attachable_of_addChild {draft draft' : Draft} {parent child : NodeId}
    (hf : draft.Forest) (hrun : addChild parent child draft = .ok () draft') :
    draft.Attachable parent child ∧ draft' = draft.moved parent child ∧ draft'.Forest := by
  by_cases h : draft.Attachable parent child
  · obtain ⟨hmoved, hf'⟩ := addChild_of_attachable hf h
    cases hrun.symm.trans hmoved
    exact ⟨h, rfl, hf'⟩
  · obtain ⟨fault, herror⟩ := addChild_of_not_attachable hf h
    cases hrun.symm.trans herror

namespace Reachable

/-- Attaching moves the child to the end of the children of `parent`, away from those of its
former parent, and changes nothing else. The outlines of the child and of all nodes that are
neither `parent`, nor the former parent, nor above one of them, are the same afterwards. The
child is listed once then, and every other node as often as before. -/
theorem attaching_moves_subtree {e : Expression} (h : Reachable e) (hroom : e.size ≤ 2 ^ 32)
    (log : Log) {parent child : NodeId} {draft : Draft}
    (hrun : Edit.addChild parent child ⟨e, log⟩ = .ok () draft) :
    (⟨e, log⟩ : Draft).Attached draft parent child ∧
    (∀ indent, ∃ text, e.outline child indent = .ok text ∧ draft.outline child indent = .ok text) ∧
    (∀ id indent, id.index < e.size →
      (∀ way, e.ancestors parent = .ok way → id ∉ way) →
      (∀ former way, e.parent child = .ok (some former) → e.ancestors former = .ok way →
        id ∉ way) →
      ∃ text, e.outline id indent = .ok text ∧ draft.outline id indent = .ok text) ∧
    draft.listed.count child = 1 ∧
    ∀ other, other ≠ child → draft.listed.count other = e.listed.count other := by
  have hf : (Draft.mk e log).Forest := h.forest hroom
  obtain ⟨hattachable, rfl, hf'⟩ := Edit.attachable_of_addChild hf hrun
  have hcount := Draft.count_listed_moved hf hroom hattachable hf'
  refine ⟨Draft.attached_moved hf hattachable, fun indent => ?_,
    fun id indent hid hparent hformer => ?_, ?_, fun other hother => ?_⟩
  · obtain ⟨tree, hbefore, hafter⟩ := Draft.exists_tree_moved_child hf hattachable hf'
    exact ⟨_, Expression.outline_ok hbefore indent, Expression.outline_ok hafter indent⟩
  · obtain ⟨tree, hbefore, hafter⟩ := Draft.exists_tree_moved hf hattachable hf' hid
      (fun way hway => hparent way (hf.ancestors_eq hway hattachable.exists_outer))
      (fun former way hsome hway => hformer former way (Expression.parent_eq_some_iff.mpr hsome)
        (hf.ancestors_eq hway (hf.exists_node?_parent hsome)))
    exact ⟨_, Expression.outline_ok hbefore indent, Expression.outline_ok hafter indent⟩
  · rw [hcount, if_pos rfl]
  · rw [hcount, if_neg hother]

/-- A factor leaves its product and becomes the last summand. -/
theorem attaching_moves_subtree_of_factor :
    ∃ draft, Expression.productInSum.inline ⟨0⟩ = .ok "x*y+z" ∧
      Edit.addChild ⟨0⟩ ⟨2⟩ ⟨.productInSum, #[]⟩ = .ok () draft ∧
      draft.inline ⟨0⟩ = .ok "y+z+x" ∧
      (⟨.productInSum, #[]⟩ : Draft).Attached draft ⟨0⟩ ⟨2⟩ ∧
      draft.outline ⟨4⟩ 0 = Expression.productInSum.outline ⟨4⟩ 0 ∧ draft.listed.count ⟨2⟩ = 1 := by
  obtain ⟨hattached, -, hframe, hcount, -⟩ :=
    attaching_moves_subtree productInSum (by decide) #[] (rfl : Edit.addChild ⟨0⟩ ⟨2⟩ _ = _)
  have hparent : ∀ way, Expression.productInSum.ancestors ⟨0⟩ = .ok way → ⟨4⟩ ∉ way := by
    intro way hway
    obtain rfl := Except.ok.inj hway
    decide
  have hformer : ∀ former way, Expression.productInSum.parent ⟨2⟩ = .ok (some former) →
      Expression.productInSum.ancestors former = .ok way → ⟨4⟩ ∉ way := by
    intro former way hformer hway
    obtain rfl := Option.some.inj (Except.ok.inj hformer)
    obtain rfl := Except.ok.inj hway
    decide
  obtain ⟨text, hbefore, hafter⟩ := hframe ⟨4⟩ 0 (by decide) hparent hformer
  exact ⟨_, rfl, rfl, rfl, hattached, hafter.trans hbefore.symm, hcount⟩

end Reachable
end ExprTree
