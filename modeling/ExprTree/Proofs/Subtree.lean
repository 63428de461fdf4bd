import ExprTree.Proofs.Expression.Lookup
import ExprTree.Proofs.Tree.Basic
import Mathlib.Data.List.Pairwise

/-!
# Subtrees

A subtree is what lies beneath a node of an expression: a tree whose nodes keep
their handles. It says which nodes of the expression belong to it, and forgetting
the handles gives the tree as a value.
-/

namespace ExprTree

inductive Subtree where
  | node (id : NodeId) (content : Content) (children : List Subtree)

namespace Subtree

def id : Subtree → NodeId
  | node id _ _ => id

def content : Subtree → Content
  | node _ content _ => content

def children : Subtree → List Subtree
  | node _ _ children => children

@[simp] theorem id_node (id : NodeId) (content : Content) (children : List Subtree) :
    (node id content children).id = id := rfl

@[simp] theorem content_node (id : NodeId) (content : Content) (children : List Subtree) :
    (node id content children).content = content := rfl

@[simp] theorem children_node (id : NodeId) (content : Content) (children : List Subtree) :
    (node id content children).children = children := rfl

@[elab_as_elim, induction_eliminator]
theorem induction {motive : Subtree → Prop}
    (node : ∀ id content children, (∀ child ∈ children, motive child) →
      motive (.node id content children)) :
    ∀ t, motive t
  | .node id content children => node id content children fun child _ => induction node child

/-- The handles of the nodes, each before its children and the children from left to right. -/
def ids : Subtree → List NodeId
  | node id _ children => id :: children.flatMap ids

@[simp] theorem ids_node (id : NodeId) (content : Content) (children : List Subtree) :
    (node id content children).ids = id :: children.flatMap ids := by
  rw [ids]

theorem mem_ids_node {root i : NodeId} {content : Content} {children : List Subtree} :
    i ∈ (node root content children).ids ↔ i = root ∨ ∃ child ∈ children, i ∈ child.ids := by
  rw [ids_node, List.mem_cons, List.mem_flatMap]

/-- The handles of the nodes, each after its children and the children from left to right. -/
def postorder : Subtree → List NodeId
  | node id _ children => children.flatMap postorder ++ [id]

@[simp] theorem postorder_node (id : NodeId) (content : Content) (children : List Subtree) :
    (node id content children).postorder = children.flatMap postorder ++ [id] := by
  rw [postorder]

/-- The tree without its handles. -/
def tree : Subtree → Tree
  | node _ (.literal l) _ => .literal l
  | node _ (.compound kind) children => .compound kind (children.map tree)

@[simp] theorem tree_literal (id : NodeId) (l : Literal) (children : List Subtree) :
    (node id (.literal l) children).tree = .literal l := by
  rw [tree]

@[simp] theorem tree_compound (id : NodeId) (kind : Compound) (children : List Subtree) :
    (node id (.compound kind) children).tree = .compound kind (children.map tree) := by
  rw [tree]

@[simp] theorem content_tree (t : Subtree) : t.tree.content = t.content := by
  cases t with
  | node id content children => cases content <;> simp [Tree.content]

/-- The number of nodes on the longest way down. -/
def height : Subtree → Nat
  | node _ _ children => (children.map height).foldr max 0 + 1

theorem height_node_le_iff {id : NodeId} {content : Content} {children : List Subtree} {n : Nat} :
    (node id content children).height ≤ n + 1 ↔ ∀ child ∈ children, child.height ≤ n := by
  rw [height, Nat.add_le_add_iff_right]
  induction children with
  | nil => simp
  | cons child rest ih => simp [ih]

theorem height_pos (t : Subtree) : 0 < t.height := by
  cases t
  rw [height]
  exact Nat.succ_pos _

theorem id_mem_ids (t : Subtree) : t.id ∈ t.ids := by
  cases t
  simp

theorem ids_sublist_of_mem {id : NodeId} {content : Content} {children : List Subtree}
    {child : Subtree} (h : child ∈ children) :
    child.ids.Sublist (node id content children).ids := by
  rw [ids_node]
  exact (List.sublist_flatten_of_mem (List.mem_map_of_mem h)).trans (List.sublist_cons_self _ _)

theorem map_id_sublist (children : List Subtree) :
    (children.map id).Sublist (children.flatMap ids) := by
  induction children with
  | nil => exact List.Sublist.refl _
  | cons child rest ih =>
    rw [List.map_cons, List.flatMap_cons, ← List.singleton_append]
    exact (List.singleton_sublist.mpr child.id_mem_ids).append ih

/-- Siblings have different handles when no handle is repeated. -/
theorem nodup_children {t : Subtree} (h : t.ids.Nodup) : (t.children.map id).Nodup := by
  cases t with
  | node id content children =>
    rw [ids_node, List.nodup_cons] at h
    exact h.2.sublist (map_id_sublist children)

/-- When no handle is repeated, a handle belongs to one of the subtrees only. -/
theorem eq_of_mem_ids {children : List Subtree} (hnodup : (children.flatMap ids).Nodup)
    {a b : Subtree} (ha : a ∈ children) (hb : b ∈ children) {id : NodeId} (hida : id ∈ a.ids)
    (hidb : id ∈ b.ids) : a = b := by
  have : Std.Symm (Function.onFun List.Disjoint ids) := ⟨fun _ _ h _ ha hb => h hb ha⟩
  by_contra hne
  exact (List.nodup_flatMap.mp hnodup).2.forall ha hb hne hida hidb

theorem size_tree_le (t : Subtree) : t.tree.size ≤ t.ids.length := by
  induction t with
  | node id content children ih =>
    rw [ids_node, List.length_cons, List.length_flatMap]
    cases content with
    | literal l =>
      rw [tree_literal, Tree.size]
      exact Nat.succ_le_succ (Nat.zero_le _)
    | compound kind =>
      rw [tree_compound, Tree.size, Tree.sizeAll_eq, List.map_map]
      exact Nat.succ_le_succ (List.sum_le_sum ih)

theorem height_le_length_ids (t : Subtree) : t.height ≤ t.ids.length := by
  induction t with
  | node id content children ih =>
    rw [ids_node, List.length_cons, height_node_le_iff]
    intro child hchild
    exact (ih child hchild).trans
      (List.sublist_flatten_of_mem (List.mem_map_of_mem hchild)).length_le

end Subtree

end ExprTree
