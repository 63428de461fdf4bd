import ExprTree.Proofs.Run
import Mathlib.Algebra.Order.Ring.Nat
import Mathlib.Data.List.Nodup
import Mathlib.Data.List.Perm.Subperm

/-!
# Looking nodes up

Proofs look a node up as an option, and read its two links through `parentOf` and
`childrenOf`, which answer for every handle: a handle without a node has neither
parent nor children. Writing a node changes the look-up of that handle only.
-/

namespace ExprTree

namespace NodeId

theorem index_lt (id : NodeId) : id.index < 2 ^ 32 :=
  id.value.toNat_lt

theorem index_ofIndex {index : Nat} (h : index < 2 ^ 32) : (ofIndex index).index = index :=
  UInt32.toNat_ofNat_of_lt' h

theorem ofIndex_index (id : NodeId) : ofIndex id.index = id :=
  index_inj.mp (index_ofIndex id.index_lt)

/-- The handle of a later position is another one. -/
theorem ne_ofIndex {id : NodeId} {index : Nat} (hid : id.index < index) (hfits : index < 2 ^ 32) :
    id ≠ ofIndex index := by
  rintro rfl
  rw [index_ofIndex hfits] at hid
  exact hid.false

/-- There are only so many different handles. -/
theorem length_le_of_nodup {ids : List NodeId} (h : ids.Nodup) : ids.length ≤ 2 ^ 32 := by
  have hindices : (ids.map index).Nodup := h.map fun _ _ => index_inj.mp
  have hsubset : ids.map index ⊆ List.range (2 ^ 32) := by
    intro i hi
    obtain ⟨id, -, rfl⟩ := List.mem_map.mp hi
    exact List.mem_range.mpr id.index_lt
  have hlength := (List.subperm_of_subset hindices hsubset).length_le
  rwa [List.length_map, List.length_range] at hlength

end NodeId

namespace Expression

/-- The node with this handle, if there is one. -/
def node? (e : Expression) (id : NodeId) : Option Node :=
  e.nodes[id.index]?

def parentOf (e : Expression) (id : NodeId) : Option NodeId :=
  (e.node? id).bind Node.parent

def childrenOf (e : Expression) (id : NodeId) : List NodeId :=
  ((e.node? id).map (·.children.toList)).getD []

section Lookup

variable {e e' : Expression} {id : NodeId} {node : Node}

theorem node_ok_iff : e.node id = .ok node ↔ e.node? id = some node :=
  node_eq_ok_iff

theorem node?_isSome_iff : (∃ node, e.node? id = some node) ↔ id.index < e.size := by
  simp only [node?, Array.getElem?_eq_some_iff]
  exact ⟨fun ⟨_, h, _⟩ => h, fun h => ⟨_, h, rfl⟩⟩

theorem node?_eq_none_iff : e.node? id = none ↔ e.size ≤ id.index := by
  rw [node?, Array.getElem?_eq_none_iff]
  rfl

theorem index_lt (h : e.node? id = some node) : id.index < e.size :=
  node?_isSome_iff.mp ⟨node, h⟩

theorem content_ok (h : e.node? id = some node) : e.content id = .ok node.content := by
  rw [content, node_ok_iff.mpr h]
  rfl

theorem parent_ok (h : e.node? id = some node) : e.parent id = .ok node.parent := by
  rw [parent, node_ok_iff.mpr h]
  rfl

theorem children_ok (h : e.node? id = some node) : e.children id = .ok node.children := by
  rw [children, node_ok_iff.mpr h]
  rfl

theorem exists_node?_of_content {content : Content} (h : e.content id = .ok content) :
    ∃ node, e.node? id = some node ∧ node.content = content := by
  cases hnode : e.node id with
  | error fault => simp [Expression.content, hnode] at h
  | ok node =>
    refine ⟨node, node_ok_iff.mp hnode, ?_⟩
    rw [content_ok (node_ok_iff.mp hnode)] at h
    exact Except.ok.inj h

theorem content_of_le (h : e.size ≤ id.index) :
    e.content id = .error (.indexOutOfBounds e.size id.index) := by
  rw [content, node_of_size_le h]
  rfl

theorem parent_of_le (h : e.size ≤ id.index) :
    e.parent id = .error (.indexOutOfBounds e.size id.index) := by
  rw [parent, node_of_size_le h]
  rfl

theorem children_of_le (h : e.size ≤ id.index) :
    e.children id = .error (.indexOutOfBounds e.size id.index) := by
  rw [children, node_of_size_le h]
  rfl

theorem parentOf_eq (h : e.node? id = some node) : e.parentOf id = node.parent := by
  rw [parentOf, h]
  rfl

theorem childrenOf_eq (h : e.node? id = some node) : e.childrenOf id = node.children.toList := by
  rw [childrenOf, h]
  rfl

/-- What a valid handle is said to have as its parent is what its node has. -/
theorem parent_of_lt (h : id.index < e.size) : e.parent id = .ok (e.parentOf id) := by
  obtain ⟨node, hnode⟩ := node?_isSome_iff.mpr h
  rw [parent_ok hnode, parentOf_eq hnode]

/-- A handle that has a parent is a valid one. -/
theorem parent_eq_some_iff {parent : NodeId} :
    e.parent id = .ok (some parent) ↔ e.parentOf id = some parent := by
  by_cases hid : id.index < e.size
  · rw [parent_of_lt hid, Except.ok.injEq]
  · have hle := Nat.le_of_not_lt hid
    rw [parent_of_le hle, parentOf, node?_eq_none_iff.mpr hle]
    exact iff_of_false (fun h => by cases h) (fun h => by cases h)

theorem exists_node?_of_parentOf {parent : NodeId} (h : e.parentOf id = some parent) :
    ∃ node, e.node? id = some node ∧ node.parent = some parent :=
  Option.bind_eq_some_iff.mp h

theorem exists_node?_of_mem_childrenOf {child : NodeId} (h : child ∈ e.childrenOf id) :
    ∃ node, e.node? id = some node ∧ child ∈ node.children := by
  cases hnode : e.node? id with
  | none => simp [childrenOf, hnode] at h
  | some node => exact ⟨node, rfl, by simpa [childrenOf, hnode] using h⟩

theorem parentOf_congr (h : e'.node? id = e.node? id) : e'.parentOf id = e.parentOf id := by
  rw [parentOf, h, parentOf]

theorem childrenOf_congr (h : e'.node? id = e.node? id) : e'.childrenOf id = e.childrenOf id := by
  rw [childrenOf, h, childrenOf]

theorem node_congr (hsize : e'.size = e.size) (h : e'.node? id = e.node? id) :
    e'.node id = e.node id := by
  rw [node?, node?] at h
  rw [node, node, h, hsize]

/-- An expression has room for as many different handles as it has nodes. -/
theorem length_le_size {ids : List NodeId} (hnodup : ids.Nodup)
    (h : ∀ id ∈ ids, ∃ node, e.node? id = some node) : ids.length ≤ e.size := by
  have hindices : (ids.map NodeId.index).Nodup := hnodup.map fun _ _ => NodeId.index_inj.mp
  have hsubset : ids.map NodeId.index ⊆ List.range e.size := by
    intro i hi
    obtain ⟨id, hid, rfl⟩ := List.mem_map.mp hi
    exact List.mem_range.mpr (node?_isSome_iff.mp (h id hid))
  simpa using (List.subperm_of_subset hindices hsubset).length_le

/-- Handles reach every node of an expression that is not too large for them, so its
look-ups determine it. -/
theorem ext_node? (hroot : e'.root = e.root) (hsize : e'.size = e.size) (hbound : e.size ≤ 2 ^ 32)
    (h : ∀ id, e'.node? id = e.node? id) : e' = e := by
  have hnodes : e'.nodes = e.nodes := by
    apply Array.ext hsize
    intro i hi hi'
    have hindex : (NodeId.ofIndex i).index = i :=
      NodeId.index_ofIndex (Nat.lt_of_lt_of_le hi' hbound)
    have := h (NodeId.ofIndex i)
    simpa [node?, hindex, hi, hi'] using this
  cases e
  cases e'
  simp_all

end Lookup

end Expression

namespace Draft

/-- The draft with one node changed. -/
def modify (draft : Draft) (id : NodeId) (change : Node → Node) : Draft :=
  { draft with nodes := draft.nodes.modify id.index change }

section Modify

variable {draft : Draft} {id other : NodeId} {change : Node → Node}

@[simp] theorem size_modify : (draft.modify id change).size = draft.size :=
  Array.size_modify

theorem node?_modify : (draft.modify id change).node? other =
    if other = id then (draft.node? other).map change else draft.node? other := by
  rw [Expression.node?, Expression.node?, modify, Array.getElem?_modify]
  simp only [NodeId.index_inj, eq_comm]

theorem node?_modify_self : (draft.modify id change).node? id = (draft.node? id).map change := by
  rw [node?_modify, if_pos rfl]

theorem node?_modify_of_ne (h : other ≠ id) :
    (draft.modify id change).node? other = draft.node? other := by
  rw [node?_modify, if_neg h]

end Modify

/-- The draft with a detached node added at its end. -/
def add (draft : Draft) (content : Content) : Draft :=
  { draft with nodes := draft.nodes.push (Node.detached content) }

section Add

variable {draft : Draft} {content : Content} {id : NodeId}

@[simp] theorem root_add : (draft.add content).root = draft.root := rfl

@[simp] theorem size_add : (draft.add content).size = draft.size + 1 :=
  Array.size_push _

theorem node?_add : (draft.add content).node? id =
    if id.index = draft.size then some (Node.detached content) else draft.node? id :=
  Array.getElem?_push

theorem node?_add_of_lt (h : id.index < draft.size) :
    (draft.add content).node? id = draft.node? id := by
  rw [node?_add, if_neg (Nat.ne_of_lt h)]

theorem node?_add_self (content : Content) (h : draft.size < 2 ^ 32) :
    (draft.add content).node? (NodeId.ofIndex draft.size) = some (Node.detached content) := by
  rw [node?_add, if_pos (NodeId.index_ofIndex h)]

end Add

end Draft

namespace Edit

theorem emit_eq {ε : Type} (record : Record) (draft : Draft) :
    (emit record : Edit ε Unit) draft =
      .ok () { draft with log := draft.log.push record } := rfl

theorem update_eq {draft : Draft} {id : NodeId} {node : Node} (h : draft.node? id = some node)
    (change : Node → Node) : update id change draft = .ok () (draft.modify id change) :=
  update_of_lt change (Expression.index_lt h)

/-- A look-up that succeeds leaves the draft as it is. -/
theorem read_of_ok {α : Type} {look : Expression → Except Fault α} {draft : Draft} {a : α}
    (h : look draft.toExpression = .ok a) : read look draft = .ok a draft := by
  rw [read_eq, h]

theorem read_of_error {α : Type} {look : Expression → Except Fault α} {draft : Draft}
    {fault : Fault} (h : look draft.toExpression = .error fault) :
    read look draft = .error fault draft := by
  rw [read_eq, h]

theorem lift_of_ok {α : Type} {edit : Edit Fault α} {draft draft' : Draft} {a : α}
    (h : edit draft = .ok a draft') : (liftM edit : Edit EditError α) draft = .ok a draft' := by
  change EStateM.adaptExcept EditError.fault edit draft = _
  rw [EStateM.adaptExcept, h]

theorem lift_of_error {α : Type} {edit : Edit Fault α} {draft draft' : Draft} {fault : Fault}
    (h : edit draft = .error fault draft') :
    (liftM edit : Edit EditError α) draft = .error (.fault fault) draft' := by
  change EStateM.adaptExcept EditError.fault edit draft = _
  rw [EStateM.adaptExcept, h]

end Edit
end ExprTree
