import ExprTree.Proofs.Expression.Paths
import ExprTree.Proofs.Expression.Walk
import ExprTree.Proofs.Meaning
import Mathlib.Data.List.Flatten
import Mathlib.Data.List.Forall2

/-!
# What flattening splices

Flattening beneath a node takes out the nodes that are the same operator as their parent, and
leaves them on their own. Everything else beneath the node stays there: it hangs beneath the
first node on its way up that was not taken out. One record is made of each node that is taken
out, after those of all nodes beneath it.
-/

namespace ExprTree

namespace Expression

/-- The node lies beneath `id` and is the same operator as its parent. -/
def Redundant (e : Expression) (id i : NodeId) : Prop :=
  i ≠ id ∧ e.Beneath id i ∧ ∃ parent operator, e.parent i = .ok (some parent) ∧
    e.content parent = .ok (.compound (.operation operator)) ∧
    e.content i = .ok (.compound (.operation operator))

/-- The first node above `i` that is not redundant. -/
def Supports (e : Expression) (id i above : NodeId) : Prop :=
  ∃ between rest, e.ancestors i = .ok (i :: (between ++ above :: rest)) ∧
    (∀ other ∈ between, e.Redundant id other) ∧ ¬ e.Redundant id above

/-- The record says that the children of `i` move to its parent, as many as there are when all
is flat beneath `i`. -/
def RecordsSplice (e : Expression) (i : NodeId) (record : Record) : Prop :=
  ∃ above flat moved, e.parent i = .ok (some above) ∧
    Edit.flattenBeneath i ⟨e, #[]⟩ = .ok () flat ∧ flat.children i = .ok moved ∧
    record = .splicing moved.size i above

end Expression

/-- All differences between `draft` and `draft'`, which has been flattened beneath `id`. -/
structure Draft.SplicedBeneath (draft draft' : Draft) (id : NodeId) : Prop where
  content_eq : ∀ i, draft'.content i = draft.content i
  size_eq : draft'.size = draft.size
  root_eq : draft'.root = draft.root
  parent_eq : draft'.parent id = draft.parent id
  outside : ∀ i, ¬ draft.Beneath id i → draft'.node i = draft.node i
  removed_iff : ∀ i, draft.Beneath id i ∧ ¬ draft'.Beneath id i ↔ draft.Redundant id i
  alone : ∀ i, draft.Redundant id i → draft'.parent i = .ok none ∧ draft'.children i = .ok #[]
  attached : ∀ i, draft.Beneath id i → i ≠ id → ¬ draft.Redundant id i →
    ∃ above siblings, draft.Supports id i above ∧ draft'.parent i = .ok (some above) ∧
      draft'.children above = .ok siblings ∧ i ∈ siblings
  log_eq : ∃ order gone records, draft.postorder id = .ok order ∧ gone.Sublist order ∧
    gone.Nodup ∧ (∀ i, i ∈ gone ↔ draft.Redundant id i) ∧
    List.Forall₂ draft.RecordsSplice gone records ∧ draft'.log = draft.log ++ records

/-! ## Absorbed subtrees -/

namespace Subtree

theorem mem_children_flat {t child : Subtree} : child ∈ t.flat.children ↔
    ∃ below ∈ t.children, (t.content.absorbs below.content = false ∧ child = below.flat) ∨
      (t.content.absorbs below.content = true ∧ child ∈ below.flat.children) := by
  cases t with
  | node id content children =>
    rw [flat_node, absorb, children_node, children_node, content_node, List.mem_append,
      List.mem_flatMap]
    constructor
    · rintro (hkept | ⟨_, hmerged, hchild⟩)
      · obtain ⟨hmem, habsorbs⟩ := List.mem_filter.mp hkept
        obtain ⟨below, hbelow, rfl⟩ := List.mem_map.mp hmem
        exact ⟨below, hbelow, .inl ⟨by simpa using habsorbs, rfl⟩⟩
      · obtain ⟨hmem, habsorbs⟩ := List.mem_filter.mp hmerged
        obtain ⟨below, hbelow, rfl⟩ := List.mem_map.mp hmem
        exact ⟨below, hbelow, .inr ⟨by simpa using habsorbs, hchild⟩⟩
    · rintro ⟨below, hbelow, ⟨habsorbs, rfl⟩ | ⟨habsorbs, hchild⟩⟩
      · exact .inl (List.mem_filter.mpr ⟨List.mem_map_of_mem hbelow, by simp [habsorbs]⟩)
      · exact .inr ⟨below.flat,
          List.mem_filter.mpr ⟨List.mem_map_of_mem hbelow, by simp [habsorbs]⟩, hchild⟩

/-- The removed nodes come in postorder. -/
theorem removed_sublist (t : Subtree) : t.removed.Sublist t.postorder := by
  suffices h : t.removed.Sublist (t.children.flatMap postorder) by
    cases t with
    | node id content children =>
      rw [postorder_node]
      exact h.trans (List.sublist_append_left _ _)
  induction t with
  | node id content children ih =>
    rw [removed_node]
    refine List.Sublist.flatMap_right children fun child hchild => ?_
    cases child with
    | node id' content' children' =>
      rw [postorder_node]
      refine (ih _ hchild).append ?_
      split
      · exact List.Sublist.refl _
      · exact List.nil_sublist _

theorem removed_child_subset {t child : Subtree} (h : child ∈ t.children) :
    child.removed ⊆ t.removed := by
  cases t with
  | node id content children =>
    rw [removed_node]
    exact fun i hi => List.mem_flatMap.mpr ⟨child, h, List.mem_append_left _ hi⟩

theorem id_mem_removed {t child : Subtree} (h : child ∈ t.children)
    (habsorbs : t.content.absorbs child.content = true) : child.id ∈ t.removed :=
  mem_removed_iff.mpr ⟨t, .refl, child, h, habsorbs, rfl⟩

theorem nodup_removed {t : Subtree} (h : t.ids.Nodup) : t.removed.Nodup :=
  (List.nodup_append.mp (t.ids_flat_perm.nodup_iff.mpr h)).2.1

/-- A node of the subtree is removed or stays, and not both. -/
theorem mem_removed_iff_not_mem {t : Subtree} (h : t.ids.Nodup) {i : NodeId} :
    i ∈ t.removed ↔ i ∈ t.ids ∧ i ∉ t.flat.ids := by
  have hdisjoint := (List.nodup_append.mp (t.ids_flat_perm.nodup_iff.mpr h)).2.2
  rw [← t.ids_flat_perm.mem_iff, List.mem_append]
  constructor
  · exact fun hi => ⟨.inr hi, fun hflat => hdisjoint i hflat i hi rfl⟩
  · rintro ⟨hflat | hi, hout⟩
    · exact absurd hflat hout
    · exact hi

end Subtree

namespace Expression

open Subtree

variable {e : Expression} {parent : Option NodeId} {t part child : Subtree} {i : NodeId}

/-- In a flat subtree, a node hangs beneath the first one on its way up that is not removed. By
induction on the subtree: what the child beneath the top has lost lies between, and so does the
child itself if it is absorbed. -/
theorem Stored.exists_between (h : e.Stored parent t) (hpart : part.PartOf t.flat)
    (hchild : child ∈ part.children) :
    ∃ between ⊆ t.removed, ∀ way, e.Ascends part.id way →
      e.Ascends child.id (child.id :: (between ++ way)) := by
  induction h generalizing part child with
  | @node parent id content children hnode hleaf hchildren ih =>
    have hsubset : ∀ below ∈ children,
        below.removed ⊆ (Subtree.node id content children).removed :=
      fun below hbelow => removed_child_subset hbelow
    obtain rfl | ⟨next, hnext, hpart⟩ := hpart.eq_or_exists
    · obtain ⟨below, hbelow, ⟨-, rfl⟩ | ⟨habsorbs, hchild⟩⟩ := mem_children_flat.mp hchild
      · refine ⟨[], List.nil_subset _, fun way hway => ?_⟩
        rw [id_flat] at hway ⊢
        exact .step (hchildren below hbelow).parentOf_id hway
      · obtain ⟨between, hbetween, hclimbs⟩ := ih below hbelow .refl hchild
        refine ⟨between ++ [below.id], ?_, fun way hway => ?_⟩
        · exact List.append_subset.mpr ⟨List.Subset.trans hbetween (hsubset below hbelow),
            List.cons_subset.mpr ⟨id_mem_removed hbelow habsorbs, List.nil_subset _⟩⟩
        · rw [id_flat] at hway hclimbs
          have hclimb := hclimbs _ (.step (hchildren below hbelow).parentOf_id hway)
          rwa [List.append_assoc, List.singleton_append]
    · obtain ⟨below, hbelow, hpart⟩ : ∃ below ∈ children, part.PartOf below.flat := by
        obtain ⟨below, hbelow, ⟨-, rfl⟩ | ⟨-, hnext⟩⟩ := mem_children_flat.mp hnext
        · exact ⟨below, hbelow, hpart⟩
        · exact ⟨below, hbelow, .step hnext hpart⟩
      obtain ⟨between, hbetween, hclimbs⟩ := ih below hbelow hpart hchild
      exact ⟨between, List.Subset.trans hbetween (hsubset below hbelow), hclimbs⟩

theorem RecordsSplice.of_stored (hf : e.Forest) {above : NodeId} (h : e.Stored (some above) t) :
    e.RecordsSplice t.id (.splicing t.flat.children.length t.id above) := by
  have hf' : (Draft.mk e #[]).Forest := hf
  obtain ⟨flat, hrun, hflat, -⟩ := Edit.flattenBeneath_of_stored hf' h
  have hmoved := children_ok hflat.stored.node?_eq
  rw [id_flat] at hmoved
  refine ⟨above, flat, _, parent_ok h.node?_eq, hrun, hmoved, ?_⟩
  rw [List.size_toArray, List.length_map]

/-- Each record is about the removed node at its position. -/
theorem Stored.recordsSplice (h : e.Stored parent t) (hf : e.Forest) :
    List.Forall₂ e.RecordsSplice t.removed t.splicings := by
  induction h with
  | @node parent id content children hnode hleaf hchildren ih =>
    have hsame : List.Forall₂ (fun a b => a = b ∧ a ∈ children) children children :=
      List.forall₂_same.mpr fun child hchild => ⟨rfl, hchild⟩
    rw [removed_node, splicings_node]
    refine List.rel_flatMap hsame ?_
    rintro child _ ⟨rfl, hchild⟩
    refine List.rel_append (ih child hchild) ?_
    split
    · exact List.forall₂_cons.mpr ⟨.of_stored hf (hchildren child hchild), .nil⟩
    · exact .nil

namespace Forest

/-- The redundant nodes are those that flattening removes from the subtree. -/
theorem redundant_iff (hf : e.Forest) (ht : e.Stored parent t) :
    e.Redundant t.id i ↔ i ∈ t.removed := by
  rw [← hf.spliced_iff ht]
  constructor
  · rintro ⟨hne, hbeneath, above, operator, hparent, houter, hinner⟩
    obtain ⟨above', habove, hparent', -⟩ := ht.exists_parent (ht.beneath_iff.mp hbeneath) hne
    rw [← parent_eq_some_iff, hparent, Except.ok.injEq, Option.some.injEq] at hparent'
    subst hparent'
    obtain ⟨way, hway⟩ := hf.grounded above
    obtain ⟨node, hnode, -⟩ := exists_node?_of_content houter
    exact ⟨above, way, _, _, hparent, hf.ancestors_eq hway ⟨node, hnode⟩,
      (hf.mem_ids_iff ht hway).mp habove, houter, hinner,
      Content.absorbs_iff.mpr ⟨operator, rfl, rfl⟩⟩
  · intro hspliced
    have hremoved := (hf.spliced_iff ht).mp hspliced
    obtain ⟨above, way, outer, inner, hparent, -, -, houter, hinner, habsorbs⟩ := hspliced
    obtain ⟨operator, rfl, rfl⟩ := Content.absorbs_iff.mp habsorbs
    refine ⟨?_, ht.beneath_iff.mpr (removed_subset t hremoved), above, operator, hparent, houter,
      hinner⟩
    rintro rfl
    exact id_not_mem_removed (hf.nodup_ids ht) hremoved

end Forest
end Expression

namespace Edit

open Subtree

variable {draft draft' : Draft} {parent : Option NodeId} {t : Subtree} {i : NodeId}

/-- A node that stays hangs beneath the first node on its way up that is not removed. -/
theorem Flattened.exists_supports (h : Flattened draft draft' parent t) (hf : draft.Forest)
    (ht : draft.Stored parent t) (hi : i ∈ t.flat.ids) (hne : i ≠ t.id) :
    ∃ above siblings, draft.Supports t.id i above ∧ draft'.parent i = .ok (some above) ∧
      draft'.children above = .ok siblings ∧ i ∈ siblings := by
  rw [← id_flat] at hne
  obtain ⟨above, habove, hparent, hmem⟩ := h.stored.exists_parent hi hne
  obtain ⟨part, hpart, rfl⟩ := exists_partOf habove
  obtain ⟨_, hstored⟩ := h.stored.of_partOf hpart
  rw [hstored.childrenOf_id] at hmem
  obtain ⟨child, hchild, rfl⟩ := List.mem_map.mp hmem
  obtain ⟨between, hbetween, hclimbs⟩ := ht.exists_between hpart hchild
  obtain ⟨way, hway⟩ := hf.grounded part.id
  obtain ⟨rest, rfl⟩ := hway.exists_cons
  obtain ⟨_, below, hbelow, heq, -⟩ := ht.exists_of_mem (ids_flat_subset t hi)
  have hancestors := hf.ancestors_eq (hclimbs _ hway) ⟨_, heq ▸ hbelow.node?_eq⟩
  refine ⟨part.id, _, ⟨between, rest, hancestors, ?_, ?_⟩,
    Expression.parent_eq_some_iff.mpr hparent, Expression.children_ok hstored.node?_eq, ?_⟩
  · exact fun other hother => (hf.redundant_iff ht).mpr (hbetween hother)
  · rw [hf.redundant_iff ht, mem_removed_iff_not_mem (hf.nodup_ids ht)]
    exact fun hremoved => hremoved.2 habove
  · simpa using hmem

theorem Flattened.splicedBeneath (h : Flattened draft draft' parent t) (hf : draft.Forest)
    (ht : draft.Stored parent t) : draft.SplicedBeneath draft' t.id := by
  have hnodup := hf.nodup_ids ht
  have hbefore : ∀ {i}, draft.Beneath t.id i ↔ i ∈ t.ids := ht.beneath_iff
  have hafter : ∀ {i}, draft'.Beneath t.id i ↔ i ∈ t.flat.ids := by
    intro i
    rw [← h.stored.beneath_iff, id_flat]
  refine ⟨h.changed.content_eq, h.changed.size, h.changed.root, ?_, ?_, ?_, ?_, ?_, ?_⟩
  · have hparent := Expression.parent_ok h.stored.node?_eq
    rw [id_flat] at hparent
    rw [hparent, Expression.parent_ok ht.node?_eq]
  · intro i hi
    exact Expression.node_congr h.changed.size (h.changed.frame i (hbefore.not.mp hi))
  · intro i
    rw [hf.redundant_iff ht, mem_removed_iff_not_mem hnodup, hbefore, hafter]
  · intro i hi
    obtain ⟨content, hnode⟩ := h.changed.detached i ((hf.redundant_iff ht).mp hi)
    exact ⟨Expression.parent_ok hnode, Expression.children_ok hnode⟩
  · intro i hi hne hkept
    rw [hf.redundant_iff ht, mem_removed_iff_not_mem hnodup, not_and, not_not] at hkept
    exact h.exists_supports hf ht (hkept (hbefore.mp hi)) hne
  · exact ⟨t.postorder, t.removed, t.splicings, hf.postorder_eq ht, t.removed_sublist,
      nodup_removed hnodup, fun i => (hf.redundant_iff ht).symm, ht.recordsSplice hf, h.log⟩

end Edit

namespace Reachable

/-- Flattening beneath a node takes out exactly the nodes that are the same operator as their
parent. It changes nothing outside of the subtree and no contents. Every other node of the
subtree ends up beneath the first one above it that was not taken out, and there is one record
for each node that was, in postorder. -/
theorem flattening_accounts_for_nodes {e : Expression} (h : Reachable e) (hroom : e.size ≤ 2 ^ 32)
    {id : NodeId} (hid : id.index < e.size) (log : Log) :
    ∃ draft, Edit.flattenBeneath id ⟨e, log⟩ = .ok () draft ∧
      (⟨e, log⟩ : Draft).SplicedBeneath draft id := by
  have hf : (Draft.mk e log).Forest := h.forest hroom
  obtain ⟨t, draft, rfl, hstored, hrun, hflat, -⟩ :=
    Edit.flattenBeneath_of_forest hf (Expression.node?_isSome_iff.mpr hid)
  exact ⟨draft, hrun, hflat.splicedBeneath hf hstored⟩

/-- The inner sum is taken out, and its operand moves to the end of the outer one. -/
theorem flattening_accounts_for_nodes_of_sum :
    ∃ draft, Edit.flattenBeneath ⟨0⟩ ⟨.sumInSum, #[]⟩ = .ok () draft ∧
      (⟨.sumInSum, #[]⟩ : Draft).SplicedBeneath draft ⟨0⟩ ∧
      Expression.sumInSum.Redundant ⟨0⟩ ⟨1⟩ ∧ ¬ draft.Beneath ⟨0⟩ ⟨1⟩ ∧
      draft.parent ⟨1⟩ = .ok none ∧ draft.parent ⟨2⟩ = .ok (some ⟨0⟩) ∧
      draft.log = #[.splicing 1 ⟨1⟩ ⟨0⟩] := by
  have hin : (⟨0⟩ : NodeId).index < Expression.sumInSum.size := by decide
  obtain ⟨draft, hrun, hspliced⟩ := flattening_accounts_for_nodes sumInSum (by decide) hin #[]
  have hredundant : Expression.sumInSum.Redundant ⟨0⟩ ⟨1⟩ :=
    ⟨by decide, .single (by decide), ⟨0⟩, .add, rfl, rfl, rfl⟩
  refine ⟨draft, hrun, hspliced, hredundant, ((hspliced.removed_iff ⟨1⟩).mpr hredundant).2,
    (hspliced.alone ⟨1⟩ hredundant).1, ?_⟩
  cases hrun
  exact ⟨rfl, rfl⟩

end Reachable
end ExprTree
