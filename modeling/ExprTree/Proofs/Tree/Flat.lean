import ExprTree.Proofs.Tree.Basic

/-!
# Flat trees

Flattening as a rewriting of trees. A child is merged into its parent when both are
sums or both are products. The children that are not merged come first, in order, and
after them the children of the merged ones. Children are flattened before their parents.
-/

namespace ExprTree

/-- Whether a tree is merged into a node of this kind that it is a child of. -/
def Compound.merges : Compound → Tree → Bool
  | .operation .add, .compound (.operation .add) _ => true
  | .operation .multiply, .compound (.operation .multiply) _ => true
  | _, _ => false

theorem Compound.parentheses_merges (tree : Tree) :
    Compound.parentheses.merges tree = false := by
  cases tree <;> rfl

theorem Compound.merges_eq_absorbs (kind : Compound) (tree : Tree) :
    kind.merges tree = (Content.compound kind).absorbs tree.content := by
  cases kind with
  | parentheses => cases tree <;> rfl
  | operation outer =>
    cases tree with
    | literal l => cases outer <;> rfl
    | compound inner children =>
      cases inner with
      | parentheses => cases outer <;> rfl
      | operation inner => cases outer <;> cases inner <;> rfl

namespace Tree

/-- A node of the given kind whose merged children have given way to their own children. -/
def merge (kind : Compound) (children : List Tree) : Tree :=
  .compound kind (children.filter (fun child => !kind.merges child) ++
    (children.filter kind.merges).flatMap Tree.children)

/-- Nothing is merged into parentheses. -/
theorem merge_parentheses (children : List Tree) :
    merge .parentheses children = .compound .parentheses children := by
  have hnone : children.filter Compound.parentheses.merges = [] :=
    List.filter_eq_nil_iff.mpr fun child _ => by simp [Compound.parentheses_merges]
  simp [merge, hnone, Compound.parentheses_merges]

def flat : Tree → Tree
  | .literal l => .literal l
  | .compound kind children => merge kind (children.map flat)

@[simp] theorem flat_literal (l : Literal) : (literal l).flat = .literal l := by
  rw [flat]

@[simp] theorem flat_compound (kind : Compound) (children : List Tree) :
    (compound kind children).flat = merge kind (children.map flat) := by
  rw [flat]

@[simp] theorem content_flat (tree : Tree) : tree.flat.content = tree.content := by
  cases tree with
  | literal l => rw [flat_literal]
  | compound kind children => rw [flat_compound, merge, content, content]

/-- What is beneath a node is gone when the node merges all of its children and nothing is left
beneath them either. -/
theorem children_flat_eq_nil_iff {tree : Tree} : tree.flat.children = [] ↔
    ∀ child ∈ tree.children,
      tree.content.absorbs child.content = true ∧ child.flat.children = [] := by
  cases tree with
  | literal l => simp [children]
  | compound kind children =>
    have hmerges (child : Tree) :
        kind.merges child.flat = (Content.compound kind).absorbs child.content := by
      rw [Compound.merges_eq_absorbs, content_flat]
    rw [flat_compound, merge, Tree.children, Tree.children, List.append_eq_nil_iff,
      List.filter_eq_nil_iff, List.flatMap_eq_nil_iff]
    simp only [List.forall_mem_map, List.mem_filter, and_imp, hmerges, content, Bool.not_eq_true',
      Bool.not_eq_false]
    constructor
    · rintro ⟨hmerged, hnone⟩ child hchild
      exact ⟨hmerged child hchild, hnone child hchild (hmerged child hchild)⟩
    · intro h
      exact ⟨fun child hchild => (h child hchild).1, fun child hchild _ => (h child hchild).2⟩

/-- What is merged has an operator, and so its content is known. -/
theorem eq_compound_of_merges {kind : Compound} {tree : Tree} (h : kind.merges tree = true) :
    tree = .compound kind tree.children := by
  unfold Compound.merges at h
  split at h
  · rfl
  · rfl
  · cases h

end Tree
end ExprTree
