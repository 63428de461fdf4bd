import ExprTree.Tree
import Mathlib.Algebra.Order.BigOperators.Group.List
import Mathlib.Algebra.Order.Ring.Nat

/-!
# Trees by induction

A property of trees holds of all of them when it passes from the children of a
node to the node. Size and height are measured in nodes, and the text of a tree
is its inline form as a list of characters, which is what readers of text see.
-/

namespace ExprTree.Tree

@[elab_as_elim, induction_eliminator]
theorem induction {motive : Tree → Prop} (literal : ∀ l, motive (.literal l))
    (compound : ∀ kind children, (∀ child ∈ children, motive child) →
      motive (.compound kind children)) :
    (tree : Tree) → motive tree := by
  intro tree
  cases tree with
  | literal l => exact literal l
  | compound kind children =>
    exact compound kind children fun child _ => induction literal compound child

mutual

/-- The number of nodes. -/
def size : Tree → Nat
  | .literal _ => 1
  | .compound _ children => sizeAll children + 1

def sizeAll : List Tree → Nat
  | [] => 0
  | tree :: rest => tree.size + sizeAll rest

end

mutual

/-- The number of nodes on the longest way down. -/
def height : Tree → Nat
  | .literal _ => 1
  | .compound _ children => heightAll children + 1

def heightAll : List Tree → Nat
  | [] => 0
  | tree :: rest => max tree.height (heightAll rest)

end

theorem size_pos (tree : Tree) : 0 < tree.size := by
  cases tree <;> simp [size]

theorem size_eq (tree : Tree) : tree.size = sizeAll tree.children + 1 := by
  cases tree <;> rfl

theorem children_eq_nil {tree : Tree} (h : tree.content.isCompound = false) :
    tree.children = [] := by
  cases tree with
  | literal l => rfl
  | compound kind children => cases h

theorem sizeAll_eq (trees : List Tree) : sizeAll trees = (trees.map size).sum := by
  induction trees with
  | nil => rfl
  | cons tree rest ih => rw [sizeAll, ih, List.map_cons, List.sum_cons]

theorem sizeAll_append (trees others : List Tree) :
    sizeAll (trees ++ others) = sizeAll trees + sizeAll others := by
  rw [sizeAll_eq, List.map_append, List.sum_append, sizeAll_eq, sizeAll_eq]

theorem heightAll_le_iff {trees : List Tree} {n : Nat} :
    heightAll trees ≤ n ↔ ∀ tree ∈ trees, tree.height ≤ n := by
  induction trees with
  | nil => simp [heightAll]
  | cons tree rest ih => rw [heightAll, Nat.max_le, ih, List.forall_mem_cons]

theorem height_pos (tree : Tree) : 0 < tree.height := by
  cases tree <;> simp [height]

theorem height_le_size (tree : Tree) : tree.height ≤ tree.size := by
  induction tree with
  | literal l => exact Nat.le_refl 1
  | compound kind children ih =>
    rw [height, size, Nat.add_le_add_iff_right, heightAll_le_iff, sizeAll_eq]
    intro child hchild
    exact (ih child hchild).trans
      (List.le_sum_of_mem (List.mem_map_of_mem hchild))

/-- The characters of the inline form. -/
def text (tree : Tree) : List Char :=
  tree.inline.toList

theorem toList_joined (separator : String) (trees : List Tree) :
    (joined separator trees).toList = List.intercalate separator.toList (trees.map text) := by
  induction trees with
  | nil => rfl
  | cons tree rest ih =>
    cases rest with
    | nil => simp [text]
    | cons next rest =>
      rw [joined_cons_cons, String.toList_append, String.toList_append, ih]
      simp [text]

@[simp] theorem text_literal (l : Literal) : (literal l).text = l.text.toList := rfl

@[simp] theorem text_parentheses (inner : Tree) :
    (compound .parentheses [inner]).text = '(' :: (inner.text ++ [')']) := by
  simp [text]

@[simp] theorem text_operation (operator : Operator) (children : List Tree) :
    (compound (.operation operator) children).text =
      List.intercalate [operator.symbol] (children.map text) := by
  rw [text, inline_operation, toList_joined]
  simp

theorem map_text_ne_nil {children : List Tree} (h : 0 < children.length) :
    children.map text ≠ [] :=
  mt List.map_eq_nil_iff.mp (List.ne_nil_of_length_pos h)

end ExprTree.Tree
