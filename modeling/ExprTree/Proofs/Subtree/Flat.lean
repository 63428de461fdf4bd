import ExprTree.Log
import ExprTree.Proofs.Subtree
import ExprTree.Proofs.Tree.Flat
import Mathlib.Data.List.Perm.Basic

/-!
# Flat subtrees

Flattening gives each node the children that it keeps, in order, followed by the
children of those that it absorbs. The absorbed ones are removed. Every handle of
the subtree is afterwards either still in it or among the removed ones. Without the
handles this is the rewriting of trees, and in what results no node absorbs another.
-/

namespace ExprTree

/-- Sums absorb sums, and products absorb products. -/
theorem Content.absorbs_iff {outer inner : Content} : outer.absorbs inner = true ↔
    ∃ operator, outer = .compound (.operation operator) ∧
      inner = .compound (.operation operator) := by
  constructor
  · intro h
    unfold absorbs at h
    split at h
    · unfold Compound.absorbs at h
      split at h
      · exact ⟨_, rfl, by rw [beq_iff_eq.mp h]⟩
      · cases h
    · cases h
  · rintro ⟨operator, rfl, rfl⟩
    exact beq_self_eq_true operator

/-- Only like contents absorb each other. -/
theorem Content.eq_of_absorbs {outer inner : Content} (h : outer.absorbs inner = true) :
    inner = outer := by
  obtain ⟨operator, rfl, rfl⟩ := absorbs_iff.mp h
  rfl

namespace Subtree

open scoped List

/-- The children that stay beneath a node with this content. -/
def kept (content : Content) (children : List Subtree) : List Subtree :=
  children.filter fun child => !content.absorbs child.content

/-- The children that such a node absorbs. -/
def merged (content : Content) (children : List Subtree) : List Subtree :=
  children.filter fun child => content.absorbs child.content

theorem kept_append_merged_perm (content : Content) (children : List Subtree) :
    kept content children ++ merged content children ~ children :=
  List.perm_append_comm.trans (List.filter_append_perm _ _)

/-- The node with the children that it absorbs replaced by what lies beneath them. -/
def absorb (id : NodeId) (content : Content) (children : List Subtree) : Subtree :=
  node id content (kept content children ++ (merged content children).flatMap Subtree.children)

def flat : Subtree → Subtree
  | node id content children => absorb id content (children.map flat)

@[simp] theorem flat_node (id : NodeId) (content : Content) (children : List Subtree) :
    (node id content children).flat = absorb id content (children.map flat) := by
  rw [flat]

@[simp] theorem id_flat (t : Subtree) : t.flat.id = t.id := by
  cases t
  rw [flat_node]
  rfl

@[simp] theorem content_flat (t : Subtree) : t.flat.content = t.content := by
  cases t
  rw [flat_node]
  rfl

/-- The handles of the nodes that flattening removes, each after those beneath it. -/
def removed : Subtree → List NodeId
  | node _ content children =>
    children.flatMap fun child =>
      child.removed ++ if content.absorbs child.content then [child.id] else []

@[simp] theorem removed_node (id : NodeId) (content : Content) (children : List Subtree) :
    (node id content children).removed = children.flatMap fun child =>
      child.removed ++ if content.absorbs child.content then [child.id] else [] := by
  rw [removed]

/-- The records of flattening, one for each node that is removed. -/
def splicings : Subtree → List Record
  | node id content children =>
    children.flatMap fun child =>
      child.splicings ++
        if content.absorbs child.content then
          [.splicing child.flat.children.length child.id id]
        else []

@[simp] theorem splicings_node (id : NodeId) (content : Content) (children : List Subtree) :
    (node id content children).splicings = children.flatMap fun child =>
      child.splicings ++
        if content.absorbs child.content then
          [.splicing child.flat.children.length child.id id]
        else [] := by
  rw [splicings]

/-- A node that absorbs none of its children is flat when they are. -/
theorem absorb_eq_node {content : Content} {children : List Subtree}
    (h : ∀ child ∈ children, content.absorbs child.content = false) (id : NodeId) :
    absorb id content children = node id content children := by
  have hkept : kept content children = children :=
    List.filter_eq_self.mpr fun child hchild => by simp [h child hchild]
  have hmerged : merged content children = [] :=
    List.filter_eq_nil_iff.mpr fun child hchild => by simp [h child hchild]
  rw [absorb, hkept, hmerged, List.flatMap_nil, List.append_nil]

/-! ## The tree of a flat subtree -/

/-- Only a compound is absorbed, and its tree has the trees beneath it as children. -/
theorem children_tree_of_absorbs {content : Content} {t : Subtree}
    (h : content.absorbs t.content = true) : t.tree.children = t.children.map tree := by
  cases t with
  | node id inner children =>
    cases inner with
    | literal l => cases content <;> cases h
    | compound kind =>
      rw [tree_compound]
      rfl

theorem tree_absorb (id : NodeId) (kind : Compound) (children : List Subtree) :
    (absorb id (.compound kind) children).tree = Tree.merge kind (children.map tree) := by
  have hmerges (child : Subtree) :
      kind.merges child.tree = (Content.compound kind).absorbs child.content := by
    rw [Compound.merges_eq_absorbs, content_tree]
  have hkept : (kept (.compound kind) children).map tree =
      (children.map tree).filter fun child => !kind.merges child := by
    simp only [List.filter_map, kept, Function.comp_def, hmerges]
  have hmoved : ((merged (.compound kind) children).flatMap Subtree.children).map tree =
      ((children.map tree).filter kind.merges).flatMap Tree.children := by
    simp only [List.filter_map, Function.comp_def, hmerges, List.map_flatMap, List.flatMap_map]
    apply List.flatMap_congr
    intro child hchild
    exact (children_tree_of_absorbs (List.mem_filter.mp hchild).2).symm
  rw [absorb, tree_compound, List.map_append, hkept, hmoved, Tree.merge]

/-- Forgetting the handles turns flattening into the rewriting of trees. -/
theorem tree_flat (t : Subtree) : t.flat.tree = t.tree.flat := by
  induction t with
  | node id content children ih =>
    cases content with
    | literal l => rw [flat_node, absorb, tree_literal, tree_literal, Tree.flat_literal]
    | compound kind =>
      have hchildren : (children.map flat).map tree = (children.map tree).map Tree.flat := by
        rw [List.map_map, List.map_map]
        exact List.map_congr_left ih
      rw [flat_node, tree_absorb, tree_compound, Tree.flat_compound, hchildren]

/-! ## Every handle is accounted for -/

theorem flatMap_ids_perm (children : List Subtree) :
    children.flatMap ids ~
      (children.flatMap Subtree.children).flatMap ids ++ children.map Subtree.id := by
  induction children with
  | nil => exact .refl _
  | cons child rest ih =>
    cases child with
    | node id content below =>
      simp only [List.flatMap_cons, ids_node, children_node, List.flatMap_append, List.map_cons,
        id_node, List.cons_append, List.append_assoc]
      refine ((ih.append_left (below.flatMap ids)).cons id).trans ?_
      rw [← List.append_assoc, ← List.append_assoc]
      exact List.perm_middle.symm

theorem ids_absorb_perm (id : NodeId) (content : Content) (children : List Subtree) :
    (absorb id content children).ids ++ (merged content children).map Subtree.id ~
      (node id content children).ids := by
  have hkept := (kept_append_merged_perm content children).flatMap_right ids
  have hmerged := flatMap_ids_perm (merged content children)
  rw [absorb, ids_node, ids_node, List.cons_append, List.perm_cons, List.flatMap_append,
    List.append_assoc]
  rw [List.flatMap_append] at hkept
  exact (hmerged.symm.append_left _).trans hkept

theorem map_id_merged_flat (content : Content) (children : List Subtree) :
    (merged content (children.map flat)).map Subtree.id =
      (merged content children).map Subtree.id := by
  simp [merged, List.filter_map, Function.comp_def]

theorem removed_perm (id : NodeId) (content : Content) (children : List Subtree) :
    (node id content children).removed ~
      children.flatMap removed ++ (merged content children).map Subtree.id := by
  have hsingle : (children.flatMap fun child =>
      if content.absorbs child.content then [child.id] else []) =
        (merged content children).map Subtree.id := by
    induction children with
    | nil => rfl
    | cons child rest ih =>
      by_cases habsorbs : content.absorbs child.content = true <;>
        simp_all [merged]
  rw [removed_node, ← hsingle]
  exact (List.flatMap_append_perm _ _ _).symm

private theorem ids_map_flat_perm_of (id : NodeId) (content : Content) {children : List Subtree}
    (h : ∀ child ∈ children, child.flat.ids ++ child.removed ~ child.ids) :
    (node id content (children.map flat)).ids ++ children.flatMap removed ~
      (node id content children).ids := by
  rw [ids_node, ids_node, List.cons_append, List.perm_cons, List.flatMap_map]
  exact (List.flatMap_append_perm _ _ _).trans (.flatMap_left _ h)

/-- Every handle is either still in the subtree or was removed from it. -/
theorem ids_flat_perm (t : Subtree) : t.flat.ids ++ t.removed ~ t.ids := by
  induction t with
  | node id content children ih =>
    have habsorb := ids_absorb_perm id content (children.map flat)
    rw [map_id_merged_flat] at habsorb
    calc (node id content children).flat.ids ++ (node id content children).removed
      _ ~ (absorb id content (children.map flat)).ids ++
            (children.flatMap removed ++ (merged content children).map Subtree.id) := by
        rw [flat_node]
        exact (removed_perm id content children).append_left _
      _ ~ ((absorb id content (children.map flat)).ids ++
            (merged content children).map Subtree.id) ++ children.flatMap removed := by
        rw [List.append_assoc]
        exact List.perm_append_comm.append_left _
      _ ~ (node id content (children.map flat)).ids ++ children.flatMap removed :=
        habsorb.append_right _
      _ ~ (node id content children).ids := ids_map_flat_perm_of id content ih

/-- The same for a node whose children are flat while it has absorbed none of them yet. -/
theorem ids_map_flat_perm (id : NodeId) (content : Content) (children : List Subtree) :
    (node id content (children.map flat)).ids ++ children.flatMap removed ~
      (node id content children).ids :=
  ids_map_flat_perm_of id content fun child _ => child.ids_flat_perm

theorem ids_flat_subset (t : Subtree) : t.flat.ids ⊆ t.ids :=
  fun _ h => t.ids_flat_perm.subset (List.mem_append_left _ h)

theorem removed_subset (t : Subtree) : t.removed ⊆ t.ids :=
  fun _ h => t.ids_flat_perm.subset (List.mem_append_right _ h)

/-- The topmost node stays when no handle is repeated. -/
theorem id_not_mem_removed {t : Subtree} (hnodup : t.ids.Nodup) : t.id ∉ t.removed := by
  intro hmem
  have hflat := t.flat.id_mem_ids
  rw [id_flat] at hflat
  exact (List.nodup_append.mp (t.ids_flat_perm.nodup_iff.mpr hnodup)).2.2 _ hflat _ hmem rfl

/-- The records are about removed nodes only. -/
theorem mem_removed_of_mem_splicings {t : Subtree} {count : Nat} {id above : NodeId}
    (h : .splicing count id above ∈ t.splicings) : id ∈ t.removed := by
  induction t with
  | node root content children ih =>
    rw [splicings_node, List.mem_flatMap] at h
    rw [removed_node, List.mem_flatMap]
    obtain ⟨child, hchild, h⟩ := h
    refine ⟨child, hchild, ?_⟩
    cases List.mem_append.mp h with
    | inl h => exact List.mem_append_left _ (ih child hchild h)
    | inr h =>
      by_cases habsorbs : content.absorbs child.content = true
      · rw [if_pos habsorbs, List.mem_singleton] at h
        cases h
        simp [habsorbs]
      · simp [habsorbs] at h

/-! ## Nothing is left to absorb -/

/-- No node of the subtree absorbs one of its children. -/
inductive IsFlat : Subtree → Prop where
  | node {id : NodeId} {content : Content} {children : List Subtree} :
      (∀ child ∈ children, content.absorbs child.content = false) →
      (∀ child ∈ children, IsFlat child) → IsFlat (.node id content children)

theorem IsFlat.absorbs_eq_false {t child : Subtree} (h : t.IsFlat) (hchild : child ∈ t.children) :
    t.content.absorbs child.content = false := by
  cases h with
  | node habsorbs _ => exact habsorbs child hchild

theorem IsFlat.child {t child : Subtree} (h : t.IsFlat) (hchild : child ∈ t.children) :
    child.IsFlat := by
  cases h with
  | node _ hchildren => exact hchildren child hchild

/-- Flattening has nothing to do on a flat subtree. -/
theorem IsFlat.eq {t : Subtree} (h : t.IsFlat) :
    t.flat = t ∧ t.removed = [] ∧ t.splicings = [] := by
  induction h with
  | @node id content children habsorbs _ ih =>
    have hflat : children.map flat = children := by
      rw [List.map_congr_left fun child hchild => (ih child hchild).1, List.map_id']
    refine ⟨?_, ?_, ?_⟩
    · rw [flat_node, hflat, absorb_eq_node habsorbs]
    · rw [removed_node, List.flatMap_eq_nil_iff]
      intro child hchild
      simp [habsorbs child hchild, (ih child hchild).2.1]
    · rw [splicings_node, List.flatMap_eq_nil_iff]
      intro child hchild
      simp [habsorbs child hchild, (ih child hchild).2.2]

/-- The children of an absorbed node are flat, and as the node above absorbs what the
absorbed one would, it absorbs none of them. -/
theorem isFlat_flat (t : Subtree) : t.flat.IsFlat := by
  induction t with
  | node id content children ih =>
    have hflats : ∀ child ∈ children.map flat, child.IsFlat := List.forall_mem_map.mpr ih
    have hbelow : ∀ child ∈ kept content (children.map flat) ++
        (merged content (children.map flat)).flatMap Subtree.children,
        content.absorbs child.content = false ∧ child.IsFlat := by
      intro child hchild
      cases List.mem_append.mp hchild with
      | inl hkept =>
        obtain ⟨hmem, habsorbs⟩ := List.mem_filter.mp hkept
        exact ⟨by simpa using habsorbs, hflats child hmem⟩
      | inr hmoved =>
        obtain ⟨outer, houter, hchild⟩ := List.mem_flatMap.mp hmoved
        obtain ⟨hmem, habsorbs⟩ := List.mem_filter.mp houter
        have hflat := hflats outer hmem
        rw [← Content.eq_of_absorbs habsorbs]
        exact ⟨hflat.absorbs_eq_false hchild, hflat.child hchild⟩
    rw [flat_node, absorb]
    exact .node (fun child hchild => (hbelow child hchild).1) fun child hchild =>
      (hbelow child hchild).2

theorem flat_flat (t : Subtree) : t.flat.flat = t.flat :=
  t.isFlat_flat.eq.1

end Subtree
end ExprTree
