import ExprTree.Proofs.Tree.Flat
import Mathlib.Algebra.BigOperators.Group.List.Basic
import Mathlib.Algebra.Group.TypeTags.Basic
import Mathlib.Algebra.Order.Group.Multiset

/-!
# Values of trees

An interpretation gives values to literals, combines the values of operands in a
commutative monoid for each operator, and is free in what it makes of parentheses.
Merging moves operands from one chain of an operator into another one and changes their
order, so that flattening changes no value under any interpretation. One of them
collects the literals.
-/

namespace ExprTree

universe u

/-- The two monoids need have nothing to do with each other. -/
structure Interpretation (α : Type u) where
  literal : Literal → α
  monoid : Operator → CommMonoid α
  parentheses : List α → α

namespace Interpretation

variable {α : Type u} (I : Interpretation α)

/-- The operands combined in the monoid of the operator, which gives its unit for none. -/
def combine (operator : Operator) (values : List α) : α :=
  letI := I.monoid operator
  values.prod

/-- The value of a chain among the operands may give way to the operands of that chain. -/
theorem combine_flatMap {β : Type} (operator : Operator) (values : List α) (chains : List β)
    (operands : β → List α) :
    I.combine operator (values ++ chains.flatMap operands) =
      I.combine operator (values ++ chains.map fun chain => I.combine operator (operands chain)) := by
  let := I.monoid operator
  change (values ++ chains.flatMap operands).prod =
    (values ++ chains.map fun chain => (operands chain).prod).prod
  rw [List.prod_append, List.prod_append, List.flatMap_def, List.prod_flatten, List.map_map]
  rfl

theorem combine_perm (operator : Operator) {xs ys : List α} (h : xs.Perm ys) :
    I.combine operator xs = I.combine operator ys := by
  let := I.monoid operator
  exact h.prod_eq

/-- What a node makes of the values of its children. -/
def apply : Compound → List α → α
  | .operation operator => I.combine operator
  | .parentheses => I.parentheses

end Interpretation

namespace Tree

open scoped List

variable {α : Type u} (I : Interpretation α)

def value : Tree → α
  | .literal l => I.literal l
  | .compound kind children => I.apply kind (children.map value)

@[simp] theorem value_literal (l : Literal) : (literal l).value I = I.literal l := by
  rw [value]

@[simp] theorem value_compound (kind : Compound) (children : List Tree) :
    (compound kind children).value I = I.apply kind (children.map (value I)) := by
  rw [value]

/-- Merging like nodes into a node keeps its value. -/
theorem value_merge (kind : Compound) (children : List Tree) :
    (merge kind children).value I = (compound kind children).value I := by
  cases kind with
  | parentheses => rw [merge_parentheses]
  | operation operator =>
    let kept := children.filter fun child => !(Compound.operation operator).merges child
    let merged := children.filter (Compound.operation operator).merges
    have hmerged : ∀ child ∈ merged,
        I.combine operator (child.children.map (value I)) = child.value I := by
      intro child hchild
      rw [eq_compound_of_merges (List.mem_filter.mp hchild).2, value_compound]
      rfl
    have hperm : kept ++ merged ~ children :=
      List.perm_append_comm.trans (List.filter_append_perm _ _)
    rw [merge, value_compound, value_compound]
    calc I.combine operator ((kept ++ merged.flatMap Tree.children).map (value I))
      _ = I.combine operator (kept.map (value I) ++
            merged.flatMap fun child => child.children.map (value I)) := by
        rw [List.map_append, List.map_flatMap]
      _ = I.combine operator (kept.map (value I) ++ merged.map (value I)) := by
        rw [I.combine_flatMap, List.map_congr_left hmerged]
      _ = I.combine operator (children.map (value I)) := by
        rw [← List.map_append]
        exact I.combine_perm operator (hperm.map _)

/-- Flattening keeps the value. -/
theorem value_flat (tree : Tree) : tree.flat.value I = tree.value I := by
  induction tree with
  | literal l => rw [flat_literal]
  | compound kind children ih =>
    have hchildren : (children.map flat).map (value I) = children.map (value I) := by
      rw [List.map_map]
      exact List.map_congr_left ih
    rw [flat_compound, value_merge, value_compound, value_compound, hchildren]

end Tree

/-! ## Literals -/

/-- Collects the literals, without regard to their order. -/
def Interpretation.literals : Interpretation (Multiplicative (Multiset Literal)) where
  literal l := .ofAdd {l}
  monoid _ := inferInstance
  parentheses values := values.prod

namespace Tree

open scoped List

theorem value_literals (tree : Tree) :
    tree.value .literals = Multiplicative.ofAdd (tree.literals : Multiset Literal) := by
  induction tree with
  | literal l => rw [value_literal, literals_literal]; rfl
  | compound kind children ih =>
    have happly : Interpretation.literals.apply kind (children.map (value .literals)) =
        (children.map (value .literals)).prod := by
      cases kind <;> rfl
    rw [value_compound, happly, literals_compound, List.map_congr_left ih]
    clear happly ih
    induction children with
    | nil => rfl
    | cons child rest ih =>
      rw [List.map_cons, List.prod_cons, ih, List.flatMap_cons, ← Multiset.coe_add, ofAdd_add]

/-- Trees of the same value under every interpretation have the same literals. -/
theorem literals_perm_of_value {s t : Tree} (h : s.value .literals = t.value .literals) :
    s.literals ~ t.literals := by
  rw [value_literals, value_literals] at h
  exact Multiset.coe_eq_coe.mp (Multiplicative.ofAdd.injective h)

end Tree
end ExprTree
