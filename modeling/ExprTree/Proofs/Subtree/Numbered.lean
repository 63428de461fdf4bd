import ExprTree.Proofs.Subtree

/-!
# Numbered trees

Numbering gives the nodes of a tree consecutive handles, each node before its
children and the children from left to right.
-/

namespace ExprTree.Tree

mutual

/-- The tree with the positions from `start` on for its nodes. -/
def number (start : Nat) : Tree → Subtree
  | .literal l => .node (NodeId.ofIndex start) (.literal l) []
  | .compound kind children =>
    .node (NodeId.ofIndex start) (.compound kind) (numberAll (start + 1) children)

def numberAll (start : Nat) : List Tree → List Subtree
  | [] => []
  | tree :: rest => number start tree :: numberAll (start + tree.size) rest

end

@[simp] theorem id_number (start : Nat) (tree : Tree) :
    (number start tree).id = NodeId.ofIndex start := by
  cases tree <;> rfl

theorem number_eq (start : Nat) (tree : Tree) :
    number start tree =
      .node (NodeId.ofIndex start) tree.content (numberAll (start + 1) tree.children) := by
  cases tree <;> rfl

/-- The trees behind others are numbered from where those end. -/
theorem numberAll_append (start : Nat) (trees others : List Tree) :
    numberAll start (trees ++ others) =
      numberAll start trees ++ numberAll (start + sizeAll trees) others := by
  induction trees generalizing start with
  | nil => rfl
  | cons tree rest ih =>
    rw [List.cons_append, numberAll, ih, numberAll, List.cons_append, sizeAll, Nat.add_assoc]

mutual

@[simp] theorem tree_number (start : Nat) : (tree : Tree) → (number start tree).tree = tree
  | .literal l => by rw [number, Subtree.tree_literal]
  | .compound kind children => by
    rw [number, Subtree.tree_compound, map_tree_numberAll]

theorem map_tree_numberAll (start : Nat) :
    (trees : List Tree) → (numberAll start trees).map Subtree.tree = trees
  | [] => rfl
  | tree :: rest => by rw [numberAll, List.map_cons, tree_number, map_tree_numberAll]

end

mutual

theorem height_number (start : Nat) :
    (tree : Tree) → (number start tree).height = tree.height
  | .literal l => by simp [number, Subtree.height, height]
  | .compound kind children => by
    rw [number, Subtree.height, height, foldr_height_numberAll]

theorem foldr_height_numberAll (start : Nat) :
    (trees : List Tree) →
      ((numberAll start trees).map Subtree.height).foldr max 0 = heightAll trees
  | [] => rfl
  | tree :: rest => by
    rw [numberAll, List.map_cons, List.foldr_cons, height_number, foldr_height_numberAll,
      heightAll]

end

mutual

theorem ids_number (start : Nat) :
    (tree : Tree) → (number start tree).ids = (List.range' start tree.size).map NodeId.ofIndex
  | .literal l => by simp [number, size]
  | .compound kind children => by
    rw [number, Subtree.ids_node, flatMap_ids_numberAll, size, List.range'_succ, List.map_cons]

theorem flatMap_ids_numberAll (start : Nat) :
    (trees : List Tree) → (numberAll start trees).flatMap Subtree.ids =
      (List.range' start (sizeAll trees)).map NodeId.ofIndex
  | [] => rfl
  | tree :: rest => by
    rw [numberAll, List.flatMap_cons, ids_number, flatMap_ids_numberAll, sizeAll,
      ← List.map_append, List.range'_append_1]

end

/-- A handle belongs to the numbered tree when its position is in the range. -/
theorem mem_ids_number {start : Nat} {tree : Tree} (hroom : start + tree.size ≤ 2 ^ 32)
    {id : NodeId} :
    id ∈ (number start tree).ids ↔ start ≤ id.index ∧ id.index < start + tree.size := by
  rw [ids_number, List.mem_map]
  simp only [List.mem_range'_1]
  constructor
  · rintro ⟨i, hi, rfl⟩
    rwa [NodeId.index_ofIndex (by omega)]
  · intro hi
    exact ⟨id.index, hi, id.ofIndex_index⟩

/-- Each of the trees has its positions in the range of all of them. -/
theorem index_of_mem_numberAll {start : Nat} {trees : List Tree}
    (hroom : start + sizeAll trees ≤ 2 ^ 32) {t : Subtree} (ht : t ∈ numberAll start trees)
    {id : NodeId} (hid : id ∈ t.ids) : start ≤ id.index ∧ id.index < start + sizeAll trees := by
  have hmem := List.mem_flatMap.mpr ⟨t, ht, hid⟩
  rw [flatMap_ids_numberAll] at hmem
  obtain ⟨i, hi, rfl⟩ := List.mem_map.mp hmem
  rw [List.mem_range'_1] at hi
  rwa [NodeId.index_ofIndex (by omega)]

theorem nodup_ids_number {start : Nat} {tree : Tree} (hroom : start + tree.size ≤ 2 ^ 32) :
    (number start tree).ids.Nodup := by
  rw [ids_number]
  apply List.Nodup.map_on ?_ List.nodup_range'
  intro i hi j hj h
  rw [List.mem_range'_1] at hi hj
  have := congrArg NodeId.index h
  rwa [NodeId.index_ofIndex (by omega), NodeId.index_ofIndex (by omega)] at this

end ExprTree.Tree
