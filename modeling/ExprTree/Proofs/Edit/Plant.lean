import ExprTree.Edit.Plant
import ExprTree.Proofs.Edit.Attach
import ExprTree.Proofs.Subtree.Numbered

/-!
# Planting trees

A planted tree occupies the positions after the nodes that were there, numbered in
the order in which they are planted, and leaves those nodes alone. An expression
made of one tree holds the numbered tree and nothing else.
-/

namespace ExprTree.Edit

open Run

/-- A node that was just added, or whose parent is yet to come, is its own root. -/
theorem ancestors_of_detached {draft : Draft} {id : NodeId} {node : Node}
    (hnode : draft.node? id = some node) (hparent : node.parent = none) :
    draft.ancestors id = .ok [id] := by
  rw [Expression.ancestors, Expression.depthBound, Expression.ancestorsWithin,
    Expression.parent_ok hnode, hparent]
  rfl

/-- Attaching one detached node to another one. -/
theorem addChild_of_detached {draft : Draft} {parent child : NodeId} {node childNode : Node}
    (hnode : draft.node? parent = some node) (hcompound : node.content.isCompound = true)
    (htop : node.parent = none) (hchild : draft.node? child = some childNode)
    (hdetached : childNode.parent = none) (hne : child ≠ parent) :
    addChild parent child draft = .ok () (draft.attach parent child) := by
  rw [addChild_of_isCompound hnode hcompound (ancestors_of_detached hnode htop) hne
    (by simpa using hne) hchild (by simp [hdetached]), hdetached]
  rfl

structure Planted (draft draft' : Draft) (tree : Tree) : Prop where
  root : draft'.root = draft.root
  log : draft'.log = draft.log
  size : draft'.size = draft.size + tree.size
  stored : draft'.Stored none (tree.number draft.size)
  frame : ∀ id, id.index < draft.size → draft'.node? id = draft.node? id

/-- What planting several trees beneath the node `parent` does. -/
structure PlantedAll (draft draft' : Draft) (parent : NodeId) (node : Node) (trees : List Tree) :
    Prop where
  root : draft'.root = draft.root
  log : draft'.log = draft.log
  size : draft'.size = draft.size + Tree.sizeAll trees
  self : draft'.node? parent = some
    { node with
      children := (node.children.toList ++
        (Tree.numberAll draft.size trees).map Subtree.id).toArray }
  stored : ∀ child ∈ Tree.numberAll draft.size trees, draft'.Stored (some parent) child
  frame : ∀ id, id.index < draft.size → id ≠ parent → draft'.node? id = draft.node? id

/-- The handle of the next node belongs to none that is there. -/
theorem ofIndex_size_ne {draft : Draft} {id : NodeId} {node : Node}
    (hnode : draft.node? id = some node) (hroom : draft.size < 2 ^ 32) :
    NodeId.ofIndex draft.size ≠ id :=
  (NodeId.ne_ofIndex (Expression.index_lt hnode) hroom).symm

theorem toArray_concat (ids : Array NodeId) (id : NodeId) :
    (ids.toList ++ [id]).toArray = ids.push id := by
  rw [← Array.toList_push, Array.toArray_toList]

namespace Planted

variable {draft middle : Draft} {parent : NodeId} {node : Node} {tree : Tree}

theorem size_attach (h : Planted draft middle tree) :
    (middle.attach parent (NodeId.ofIndex draft.size)).size = draft.size + tree.size := by
  rw [Draft.size_attach, h.size]

/-- A tree that was planted on its own is attached by its topmost node. -/
theorem attach (h : Planted draft middle tree) (hroom : draft.size + tree.size ≤ 2 ^ 32)
    (hnode : draft.node? parent = some node) :
    PlantedAll draft (middle.attach parent (NodeId.ofIndex draft.size)) parent node [tree] := by
  have hpos := tree.size_pos
  have hne := ofIndex_size_ne hnode (by omega)
  have hparent := Expression.index_lt hnode
  have hframe : ∀ id, id ≠ parent → id ≠ NodeId.ofIndex draft.size →
      (middle.attach parent (NodeId.ofIndex draft.size)).node? id = middle.node? id := by
    intro id hid hid'
    rw [Draft.node?_attach hne]
    simp [hid, hid']
  refine ⟨h.root, h.log, ?_, ?_, ?_, ?_⟩
  · rw [h.size_attach, Tree.sizeAll, Tree.sizeAll, Nat.add_zero]
  · rw [Draft.node?_attach hne, h.frame parent hparent, hnode]
    simp [Ne.symm hne, Tree.numberAll, toArray_concat]
  · rw [Tree.numberAll, Tree.numberAll]
    refine List.forall_mem_singleton.mpr (h.stored.reparent ?_ ?_ ?_)
    · rw [Tree.id_number, Draft.node?_attach hne]
      simp [hne]
    · intro id hid htop
      rw [Tree.mem_ids_number (by omega)] at hid
      rw [Tree.id_number] at htop
      refine hframe id ?_ htop
      rintro rfl
      omega
    · exact Tree.nodup_ids_number (by omega)
  · intro id hid hne'
    rw [hframe id hne' (NodeId.ne_ofIndex hid (by omega)), h.frame id hid]

end Planted

/-- The log plays no part in what is planted. -/
theorem Planted.withLog {draft draft' : Draft} {tree : Tree} (h : Planted draft draft' tree)
    (log : Log) : Planted { draft with log } { draft' with log } tree :=
  ⟨h.root, rfl, h.size, h.stored, h.frame⟩

namespace PlantedAll

theorem nil {draft : Draft} {parent : NodeId} {node : Node}
    (hnode : draft.node? parent = some node) : PlantedAll draft draft parent node [] := by
  refine ⟨rfl, rfl, rfl, ?_, by simp [Tree.numberAll], fun _ _ _ => rfl⟩
  simp [hnode, Tree.numberAll]

/-- What is planted first stays where it is while the rest is planted behind it. -/
theorem append {draft middle last : Draft} {parent : NodeId} {node : Node} {trees others : List Tree}
    (h : PlantedAll draft middle parent node trees)
    (hothers : PlantedAll middle last parent
      { node with
        children := (node.children.toList ++
          (Tree.numberAll draft.size trees).map Subtree.id).toArray } others)
    (hroom : draft.size + Tree.sizeAll trees ≤ 2 ^ 32) (hparent : parent.index < draft.size) :
    PlantedAll draft last parent node (trees ++ others) := by
  have hsize := h.size
  refine ⟨hothers.root.trans h.root, hothers.log.trans h.log, ?_, ?_, ?_, ?_⟩
  · rw [hothers.size, hsize, Tree.sizeAll_append, Nat.add_assoc]
  · rw [hothers.self, hsize, Tree.numberAll_append, List.map_append, List.append_assoc]
  · rw [Tree.numberAll_append, ← hsize]
    refine List.forall_mem_append.mpr ⟨?_, hothers.stored⟩
    intro child hchild
    refine (h.stored child hchild).congr fun id hid => ?_
    have hindex := Tree.index_of_mem_numberAll hroom hchild hid
    refine hothers.frame id (by omega) ?_
    rintro rfl
    omega
  · intro id hid hne
    rw [hothers.frame id (by omega) hne, h.frame id hid hne]

/-- A tree is planted by adding its topmost node and planting the children beneath it. -/
theorem planted {draft draft' : Draft} {tree : Tree}
    (h : PlantedAll (draft.add tree.content) draft' (NodeId.ofIndex draft.size)
      (Node.detached tree.content) tree.children)
    (hfits : draft.size < 2 ^ 32) : Planted draft draft' tree where
  root := h.root
  log := h.log
  size := by
    rw [h.size, Draft.size_add, tree.size_eq]
    omega
  stored := by
    have hstored := h.stored
    have hnode := h.self
    rw [Draft.size_add] at hstored hnode
    rw [Tree.number_eq]
    refine .node hnode ?_ hstored
    intro hleaf
    rw [Tree.children_eq_nil hleaf, Tree.numberAll]
  frame id hid := by
    rw [h.frame id (by rw [Draft.size_add]; omega) (NodeId.ne_ofIndex hid hfits),
      Draft.node?_add_of_lt hid]

end PlantedAll

/-- A literal is planted by adding it. -/
theorem planted_literal {draft : Draft} (l : Literal) (hfits : draft.size < 2 ^ 32) :
    Planted draft (draft.add (.literal l)) (.literal l) :=
  PlantedAll.planted (.nil (Draft.node?_add_self (.literal l) hfits)) hfits

mutual

theorem plant_spec : (tree : Tree) → ∀ draft : Draft, draft.size + tree.size ≤ 2 ^ 32 →
    ∃ draft', plant tree draft = .ok (NodeId.ofIndex draft.size) draft' ∧ Planted draft draft' tree
  | .literal l, draft, hroom => by
    rw [Tree.size] at hroom
    exact ⟨draft.add (.literal l), rfl, planted_literal l (by omega)⟩
  | .compound kind children, draft, hroom => by
    rw [Tree.size] at hroom
    have hfits : draft.size < 2 ^ 32 := by omega
    obtain ⟨draft', hrun, hplanted⟩ := plantAll_spec _ children (draft.add (.compound kind)) _
      (by rw [Draft.size_add]; omega) (Draft.node?_add_self (.compound kind) hfits) rfl rfl
    exact ⟨draft', (bind_of_ok (insert_eq _ draft)).trans ((bind_of_ok hrun).trans rfl),
      hplanted.planted hfits⟩

theorem plantAll_spec (parent : NodeId) :
    (trees : List Tree) → ∀ (draft : Draft) (node : Node),
      draft.size + Tree.sizeAll trees ≤ 2 ^ 32 → draft.node? parent = some node →
      node.parent = none → node.content.isCompound = true →
      ∃ draft', plantAll parent trees draft = .ok () draft' ∧
        PlantedAll draft draft' parent node trees
  | [], draft, node, _, hnode, _, _ => ⟨draft, rfl, .nil hnode⟩
  | tree :: rest, draft, node, hroom, hnode, htop, hcompound => by
    rw [Tree.sizeAll] at hroom
    have hpos := tree.size_pos
    have hne := ofIndex_size_ne hnode (by omega)
    have hparent := Expression.index_lt hnode
    obtain ⟨middle, hrun, hplanted⟩ := plant_spec tree draft (by omega)
    have hchild := hplanted.stored.node?_eq
    rw [Tree.id_number] at hchild
    have hattach := addChild_of_detached ((hplanted.frame parent hparent).trans hnode) hcompound
      htop hchild rfl hne
    have hfirst := hplanted.attach (by omega) hnode
    obtain ⟨last, hruns, hrest⟩ := plantAll_spec parent rest
      (middle.attach parent (NodeId.ofIndex draft.size)) _
      (by rw [hplanted.size_attach]; omega) hfirst.self htop hcompound
    refine ⟨last, (bind_of_ok hrun).trans ((bind_of_ok hattach).trans hruns), ?_⟩
    exact hfirst.append hrest (by rw [Tree.sizeAll, Tree.sizeAll]; omega) hparent

end

end ExprTree.Edit

namespace ExprTree.Expression

theorem copy_eq_ok_iff {e copied : Expression} {id : NodeId} :
    e.copy id = .ok copied ↔ ∃ tree, e.tree id = .ok tree ∧ ofTree tree = .ok copied := by
  unfold copy
  cases e.tree id with
  | ok tree =>
    change ofTree tree = .ok copied ↔ _
    simp
  | error fault =>
    change Except.error fault = .ok copied ↔ _
    simp

/-- An expression that consists of one tree, numbered from zero on. -/
structure Dense (e : Expression) (tree : Tree) : Prop where
  root : e.root = NodeId.ofIndex 0
  size : e.size = tree.size
  stored : e.Stored none (tree.number 0)

/-- What is planted on empty ground is all there is. -/
theorem dense_of_planted {log : Log} {draft : Draft} {tree : Tree}
    (h : Edit.Planted ⟨empty, log⟩ draft tree) :
    Dense ⟨draft.nodes, NodeId.ofIndex 0⟩ tree where
  root := rfl
  size := h.size.trans (Nat.zero_add _)
  stored := h.stored.congr fun _ _ => rfl

theorem exists_ofTree {tree : Tree} (hroom : tree.size ≤ 2 ^ 32) :
    ∃ e, ofTree tree = .ok e ∧ e.Dense tree := by
  obtain ⟨draft, hrun, hplanted⟩ := Edit.plant_spec tree ⟨empty, #[]⟩
    (by simpa [empty, size] using hroom)
  refine ⟨_, ?_, dense_of_planted hplanted⟩
  rw [ofTree, hrun]
  rfl

namespace Dense

variable {e : Expression} {tree : Tree}

theorem nodup_ids (h : e.Dense tree) (hroom : e.size ≤ 2 ^ 32) : (tree.number 0).ids.Nodup :=
  Tree.nodup_ids_number (by rwa [Nat.zero_add, ← h.size])

theorem id_number_eq (h : e.Dense tree) : (tree.number 0).id = e.root := by
  rw [Tree.id_number, h.root]

theorem mem_ids (h : e.Dense tree) (hroom : e.size ≤ 2 ^ 32) {id : NodeId} :
    id ∈ (tree.number 0).ids ↔ id.index < e.size := by
  rw [h.size] at hroom ⊢
  rw [Tree.mem_ids_number (by omega)]
  omega

theorem forest (h : e.Dense tree) (hroom : e.size ≤ 2 ^ 32) : e.Forest := by
  apply h.stored.forest (h.nodup_ids hroom)
  · rw [← h.id_number_eq]
    exact Subtree.id_mem_ids _
  · intro id node hnode
    exact (h.mem_ids hroom).mpr (index_lt hnode)

theorem tree_eq (h : e.Dense tree) (hroom : e.size ≤ 2 ^ 32) : e.tree e.root = .ok tree := by
  rw [← h.id_number_eq, h.stored.tree_eq (h.nodup_ids hroom), Tree.tree_number]

theorem parentOf_root (h : e.Dense tree) : e.parentOf e.root = none := by
  rw [← h.id_number_eq, h.stored.parentOf_id]

/-- The tree leaves no choice. -/
theorem unique {e' : Expression} (h : e.Dense tree) (h' : e'.Dense tree) (hroom : e.size ≤ 2 ^ 32) :
    e' = e := by
  have hsize : e'.size = e.size := h'.size.trans h.size.symm
  refine ext_node? (h'.root.trans h.root.symm) hsize hroom fun id => ?_
  by_cases hid : id.index < e.size
  · exact h.stored.node?_eq_node? h'.stored ((h.mem_ids hroom).mpr hid)
  · rw [node?_eq_none_iff.mpr (Nat.le_of_not_lt hid),
      node?_eq_none_iff.mpr (hsize ▸ Nat.le_of_not_lt hid)]

end Dense

end ExprTree.Expression
