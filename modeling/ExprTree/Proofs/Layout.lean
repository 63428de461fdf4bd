import ExprTree.Proofs.Expression.Nested
import ExprTree.Proofs.Expression.Paths
import ExprTree.Proofs.Expression.Walk
import ExprTree.Proofs.Parsing

/-!
# Dense layouts

An expression that was made from a tree keeps its nodes in the order of a walk: the root
comes first, every node has its whole subtree right behind it, and nothing is left over.
Reading a text makes such an expression, since flattening has nothing to detach.
-/

namespace ExprTree

namespace Tree

theorem map_index_ids_number {start : Nat} {tree : Tree} (hroom : start + tree.size ≤ 2 ^ 32) :
    (number start tree).ids.map NodeId.index = List.range' start tree.size := by
  have hindex : ∀ i ∈ List.range' start tree.size, (NodeId.index ∘ NodeId.ofIndex) i = i := by
    intro i hi
    rw [List.mem_range'_1] at hi
    exact NodeId.index_ofIndex (by omega)
  rw [ids_number, List.map_map, List.map_congr_left hindex, List.map_id']

/-- Numbered one after the other, each tree has a range of positions to itself. -/
theorem exists_number_of_mem {start : Nat} {trees : List Tree} {t : Subtree}
    (h : t ∈ numberAll start trees) :
    ∃ first tree, t = number first tree ∧ first + tree.size ≤ start + sizeAll trees := by
  induction trees generalizing start with
  | nil => simp [numberAll] at h
  | cons tree rest ih =>
    rw [numberAll, List.mem_cons] at h
    rw [sizeAll]
    rcases h with rfl | h
    · exact ⟨start, tree, rfl, by omega⟩
    · obtain ⟨first, inner, rfl, hlast⟩ := ih h
      exact ⟨first, inner, rfl, by omega⟩

/-- A part of a numbered tree is numbered without gaps as well. -/
theorem exists_number_of_partOf {start : Nat} {tree : Tree} {part : Subtree}
    (h : part.PartOf (number start tree)) :
    ∃ first inner, part = number first inner ∧ first + inner.size ≤ start + tree.size := by
  generalize ht : number start tree = t at h
  induction h generalizing start tree with
  | refl => exact ⟨start, tree, ht.symm, Nat.le_refl _⟩
  | @step t child hchild _ ih =>
    subst ht
    cases tree with
    | literal l => simp [number] at hchild
    | compound kind children =>
      rw [number, Subtree.children_node] at hchild
      obtain ⟨next, inner, rfl, hnext⟩ := exists_number_of_mem hchild
      obtain ⟨first, part, rfl, hlast⟩ := ih rfl
      refine ⟨first, part, rfl, ?_⟩
      rw [size]
      omega

end Tree

namespace Expression

/-- The nodes lie in the order of a walk from the root, with none of them left detached, and
so do those of every subtree, from its topmost node on. -/
structure LaidOut (e : Expression) : Prop where
  root : e.root.index = 0
  order : ∃ order, e.walk e.root = .ok order ∧ order.map NodeId.index = List.range e.size
  attached : ∀ id, id.index < e.size → e.Beneath e.root id
  top : ∀ id, id.index < e.size → (e.parent id = .ok none ↔ id = e.root)
  subtree : ∀ id, id.index < e.size → ∃ order, e.walk id = .ok order ∧
    order.map NodeId.index = List.range' id.index order.length

namespace Dense

variable {e : Expression} {tree : Tree}

/-- Beneath every node a tree is stored that is numbered from that node on. -/
theorem exists_stored (h : e.Dense tree) (hroom : e.size ≤ 2 ^ 32) {id : NodeId}
    (hid : id.index < e.size) :
    ∃ above part, e.Stored above (Tree.number id.index part) ∧ id.index + part.size ≤ e.size := by
  obtain ⟨part, hpart, hpartId⟩ := Subtree.exists_partOf ((h.mem_ids hroom).mpr hid)
  obtain ⟨above, hstored⟩ := h.stored.of_partOf hpart
  obtain ⟨first, inner, rfl, hlast⟩ := Tree.exists_number_of_partOf hpart
  rw [Nat.zero_add, ← h.size] at hlast
  have hpos := inner.size_pos
  obtain rfl : id.index = first := by
    rw [← hpartId, Tree.id_number, NodeId.index_ofIndex (by omega)]
  exact ⟨above, inner, hstored, hlast⟩

/-- The walk beneath a node visits the positions from that node on. -/
theorem exists_walk (h : e.Dense tree) (hroom : e.size ≤ 2 ^ 32) {id : NodeId}
    (hid : id.index < e.size) :
    ∃ order, e.walk id = .ok order ∧ order.map NodeId.index = List.range' id.index order.length := by
  obtain ⟨above, part, hstored, hlast⟩ := h.exists_stored hroom hid
  have hwalk := (h.forest hroom).walk_eq hstored
  rw [Tree.id_number, id.ofIndex_index] at hwalk
  refine ⟨_, hwalk, ?_⟩
  rw [Tree.map_index_ids_number (by omega), Tree.ids_number, List.length_map, List.length_range']

theorem laidOut (h : e.Dense tree) (hroom : e.size ≤ 2 ^ 32) : e.LaidOut where
  root := by
    rw [h.root]
    rfl
  order := by
    have hwalk := (h.forest hroom).walk_eq h.stored
    rw [h.id_number_eq] at hwalk
    refine ⟨_, hwalk, ?_⟩
    rw [Tree.map_index_ids_number (by rw [Nat.zero_add, ← h.size]; exact hroom), h.size,
      List.range_eq_range']
  attached id hid := by
    rw [← h.id_number_eq]
    exact h.stored.beneath_iff.mpr ((h.mem_ids hroom).mpr hid)
  top id hid := by
    rw [parent_of_lt hid, Except.ok.injEq]
    constructor
    · intro hnone
      by_contra hne
      rw [← h.id_number_eq] at hne
      obtain ⟨above, -, hparent, -⟩ := h.stored.exists_parent ((h.mem_ids hroom).mpr hid) hne
      rw [hnone] at hparent
      cases hparent
    · rintro rfl
      exact h.parentOf_root
  subtree _ hid := h.exists_walk hroom hid

end Dense

/-- The nodes of an expression that is read from a text are numbered in the order of a walk. -/
theorem laidOut_of_parse {text : String} (hlength : text.length ≤ 2 ^ 32) {log log' : Log}
    {e : Expression} (h : parse text log = .ok e log') : e.LaidOut := by
  have hroom : e.size ≤ 2 ^ 32 := (size_le_of_parse h).trans hlength
  obtain ⟨tree, -, -, hdense⟩ := of_parse_eq_ok h hroom
  exact hdense.laidOut hroom

/-- A sum in parentheses that is a factor. -/
theorem laidOut_of_parse_product :
    ∃ e log', parse "x*(1+y)" #[] = .ok e log' ∧ e.size = 6 ∧ e.LaidOut := by
  have hsum : (Tree.compound (.operation .add)
      [.literal ⟨"1", by decide⟩, .literal ⟨"y", by decide⟩]).Canonical :=
    .operation (by decide) (by simp [Tree.content, Operator.admits])
      (by simp [Tree.Canonical.literal])
  have hreads : ReadAs "x*(1+y)".toList (.compound (.operation .multiply)
      [.literal ⟨"x", by decide⟩, .compound .parentheses [.compound (.operation .add)
        [.literal ⟨"1", by decide⟩, .literal ⟨"y", by decide⟩]]]) :=
    ⟨List.all_eq_true.mp rfl, .operation (by decide) (by simp [Tree.content, Operator.admits])
      (by simp [Tree.Canonical.literal, Tree.Canonical.parentheses hsum]), rfl⟩
  obtain ⟨e, -, hdense, hparse⟩ := exists_parse hreads (by decide) #[]
  exact ⟨e, _, hparse, hdense.size, laidOut_of_parse (by decide) hparse⟩

end Expression
end ExprTree
