import ExprTree.Proofs.Edit.Flatten
import ExprTree.Proofs.Expression.Nested

/-!
# Flattening twice

Flattening beneath a node changes the subtrees above it and around it only in its own
place. Beneath a node that was flattened already there is nothing left to do, and what
was done beneath a part of a subtree would have been done with the whole. So it does not
matter in which order two nodes are flattened beneath.
-/

namespace ExprTree

namespace Expression

variable {e e₁ e₂ : Expression} {touched₁ touched₂ gone₁ gone₂ : List NodeId}

/-- A node that both changes detach is the same after both, since it keeps its content. -/
theorem Changed.node?_eq_of_detached (h₁ : e.Changed e₁ touched₁ gone₁)
    (h₂ : e.Changed e₂ touched₂ gone₂) {id : NodeId} (hid₁ : id ∈ gone₁) (hid₂ : id ∈ gone₂) :
    e₁.node? id = e₂.node? id := by
  obtain ⟨content₁, hnode₁⟩ := h₁.detached id hid₁
  obtain ⟨content₂, hnode₂⟩ := h₂.detached id hid₂
  have hcontent := (h₁.content id).trans (h₂.content id).symm
  rw [hnode₁, hnode₂, Option.map_some, Option.map_some, Option.some.injEq] at hcontent
  rw [hnode₁, hnode₂, show content₁ = content₂ from hcontent]

/-- Changes that both put the flat form of a subtree into its place, and detach what it
loses, agree on its nodes. -/
theorem Changed.node?_eq_of_flat (h₁ : e.Changed e₁ touched₁ gone₁)
    (h₂ : e.Changed e₂ touched₂ gone₂) {parent : Option NodeId} {t : Subtree}
    (hstored₁ : e₁.Stored parent t.flat) (hstored₂ : e₂.Stored parent t.flat)
    (hgone₁ : t.removed ⊆ gone₁) (hgone₂ : t.removed ⊆ gone₂) {id : NodeId} (hid : id ∈ t.ids) :
    e₁.node? id = e₂.node? id := by
  cases List.mem_append.mp (t.ids_flat_perm.symm.subset hid) with
  | inl hid => exact hstored₂.node?_eq_node? hstored₁ hid
  | inr hid => exact h₁.node?_eq_of_detached h₂ (hgone₁ hid) (hgone₂ hid)

/-- Changes that agree on what either of them touches are the same. -/
theorem Changed.eq (h₁ : e.Changed e₁ touched₁ gone₁) (h₂ : e.Changed e₂ touched₂ gone₂)
    (hroom : e.size ≤ 2 ^ 32)
    (hsame : ∀ id, id ∈ touched₁ ∨ id ∈ touched₂ → e₁.node? id = e₂.node? id) : e₁ = e₂ := by
  refine ext_node? (h₁.root.trans h₂.root.symm) (h₁.size.trans h₂.size.symm) (h₂.size ▸ hroom) ?_
  intro id
  by_cases hid : id ∈ touched₁ ∨ id ∈ touched₂
  · exact hsame id hid
  · rw [not_or] at hid
    exact (h₁.frame id hid.1).trans (h₂.frame id hid.2).symm

end Expression

namespace Edit

open Subtree

variable {draft draft' draft₁ draft₂ : Draft} {parent : Option NodeId} {s t part : Subtree}

namespace Flattened

/-- The parts of the subtree that are not removed are flattened with it. -/
theorem exists_stored_of_partOf (h : Flattened draft draft' parent t) (hpart : part.PartOf t)
    (hkept : part.id ∉ t.removed) : ∃ above, draft'.Stored above part.flat :=
  h.stored.of_partOf (hpart.flat hkept)

/-- A subtree from outside changes in the place of the flattened one only. -/
theorem stored_flatAt (h : Flattened draft draft' parent t) (ht : draft.Stored parent t)
    {above : Option NodeId} (hs : draft.Stored above s) (houtside : s.id ∈ t.ids → s.id = t.id) :
    draft'.Stored above (s.flatAt t.id) := by
  induction hs with
  | @node above id content children hnode hleaf hchildren ih =>
    have hself : draft.Stored above (.node id content children) := .node hnode hleaf hchildren
    by_cases hid : id = t.id
    · obtain rfl := hself.unique ht hid
      obtain rfl : above = parent := hself.parentOf_id.symm.trans ht.parentOf_id
      rw [flatAt_self]
      exact h.stored
    · have hout : id ∉ t.ids := fun hmem => hid (houtside hmem)
      rw [flatAt_node_of_ne hid]
      refine .node ?_ ?_ (List.forall_mem_map.mpr ?_)
      · rw [h.changed.frame id hout, hnode]
        simp [Function.comp_def]
      · intro hcontent
        rw [hleaf hcontent, List.map_nil]
      · intro child hchild
        apply ih child hchild
        intro hmem
        by_contra htop
        obtain ⟨other, hother, hparent, -⟩ := ht.exists_parent hmem htop
        rw [(hchildren child hchild).parentOf_id, Option.some.injEq] at hparent
        exact hout (hparent ▸ hother)

/-- A node without a parent is not inside of any subtree but its own. -/
theorem eq_id_of_top (ht : draft.Stored parent t) {top : NodeId} (htop : draft.parentOf top = none)
    (hmem : top ∈ t.ids) : top = t.id := by
  by_contra hne
  obtain ⟨above, -, hparent, -⟩ := ht.exists_parent hmem hne
  simp [htop] at hparent

/-- What is stored beneath a node without a parent changes in one place, if at all. -/
theorem stored_flatAt_of_top (h : Flattened draft draft' parent t) (ht : draft.Stored parent t)
    (hs : draft.Stored none s) : draft'.Stored none (s.flatAt t.id) :=
  h.stored_flatAt ht hs (eq_id_of_top ht hs.parentOf_id)

/-- Beneath the nodes of a flattened subtree there is nothing left to do. -/
theorem flattenBeneath_eq (h : Flattened draft draft' parent t) (hf : draft'.Forest)
    (hroom : draft'.size ≤ 2 ^ 32) (hpart : part.PartOf t) :
    flattenBeneath part.id draft' = .ok () draft' := by
  obtain ⟨above, s, hid, hflat, hstored⟩ : ∃ above, ∃ s : Subtree, s.id = part.id ∧ s.IsFlat ∧
      draft'.Stored above s := by
    by_cases hgone : part.id ∈ t.removed
    · obtain ⟨content, hnode⟩ := h.changed.detached part.id hgone
      exact ⟨none, .node part.id content [], rfl, .node (by simp) (by simp),
        .node hnode (fun _ => rfl) (by simp)⟩
    · obtain ⟨above, hstored⟩ := h.exists_stored_of_partOf hpart hgone
      exact ⟨above, part.flat, id_flat part, part.isFlat_flat, hstored⟩
  obtain ⟨last, hrun, hagain, -⟩ := flattenBeneath_of_stored hf hstored
  rw [← hid, hrun, hagain.eq_of_isFlat hstored hflat hroom]

end Flattened

/-- What was done beneath a part is done with the whole as well. -/
theorem flattenBeneath_of_partOf (hf : draft.Forest) (hroom : draft.size ≤ 2 ^ 32)
    (ht : draft.Stored parent t) (hpart : part.PartOf t) (h₁ : Flattened draft draft₁ parent t) :
    ∃ middle last, flattenBeneath part.id draft = .ok () middle ∧
      flattenBeneath t.id middle = .ok () last ∧ last.toExpression = draft₁.toExpression := by
  have hnodup := hf.nodup_ids ht
  obtain ⟨above, hstored⟩ := ht.of_partOf hpart
  obtain ⟨middle, hrun, hmiddle, hf'⟩ := flattenBeneath_of_stored hf hstored
  have hwhole : middle.Stored parent (t.flatAt part.id) := hmiddle.stored_flatAt hstored ht
    fun hmem => congrArg Subtree.id (hpart.eq_of_id_mem hnodup hmem).symm
  obtain ⟨last, hrun', hlast, -⟩ := flattenBeneath_of_stored hf' hwhole
  rw [id_flatAt] at hrun'
  refine ⟨middle, last, hrun, hrun', ?_⟩
  have happart : ∀ id ∈ part.removed, id ∉ (t.flatAt part.id).ids := by
    have := (ids_flatAt_perm hpart hnodup).nodup_iff.mpr hnodup
    exact fun id hid hmem => (List.nodup_append.mp this).2.2 id hmem id hid rfl
  have hchanged := hmiddle.changed.trans hlast.changed happart
  have hsubset : part.ids ++ (t.flatAt part.id).ids ⊆ t.ids :=
    List.append_subset.mpr ⟨hpart.ids_sublist.subset, ids_flatAt_subset hpart hnodup⟩
  have hflat := hlast.stored
  rw [flat_flatAt] at hflat
  apply hchanged.eq h₁.changed hroom
  intro id hid
  apply hchanged.node?_eq_of_flat h₁.changed hflat h₁.stored
    (removed_flatAt_perm hpart hnodup).symm.subset (List.Subset.refl _)
  exact hid.elim (fun hid => hsubset hid) fun hid => hid

/-- Two runs on subtrees without a common node do not get in each other's way. -/
theorem Flattened.trans_of_disjoint {parent' : Option NodeId} (h : Flattened draft draft₁ parent' s)
    (h' : Flattened draft₁ draft' parent t) (hdisjoint : ∀ id ∈ s.ids, id ∉ t.ids) :
    draft.Changed draft'.toExpression (s.ids ++ t.ids) (s.removed ++ t.removed) ∧
      draft'.Stored parent' s.flat ∧ draft'.Stored parent t.flat := by
  refine ⟨h.changed.trans h'.changed fun id hid => hdisjoint id (removed_subset s hid), ?_,
    h'.stored⟩
  exact h.stored.congr fun id hid => h'.changed.frame id (hdisjoint id (ids_flat_subset s hid))

theorem flattenBeneath_comm_of_disjoint (hroom : draft.size ≤ 2 ^ 32) {parent' : Option NodeId}
    (hs : draft.Stored parent' s) (ht : draft.Stored parent t)
    (hdisjoint : ∀ id ∈ s.ids, id ∉ t.ids) (h₁ : Flattened draft draft₁ parent' s)
    (hf₁ : draft₁.Forest) (h₂ : Flattened draft draft₂ parent t) (hf₂ : draft₂.Forest) :
    ∃ last₁ last₂, flattenBeneath t.id draft₁ = .ok () last₁ ∧
      flattenBeneath s.id draft₂ = .ok () last₂ ∧ last₁.toExpression = last₂.toExpression := by
  have hdisjoint' : ∀ id ∈ t.ids, id ∉ s.ids := fun id hid hmem => hdisjoint id hmem hid
  have ht₁ : draft₁.Stored parent t := ht.congr fun id hid => h₁.changed.frame id (hdisjoint' id hid)
  have hs₂ : draft₂.Stored parent' s := hs.congr fun id hid => h₂.changed.frame id (hdisjoint id hid)
  obtain ⟨last₁, hrun₁, hlast₁, -⟩ := flattenBeneath_of_stored hf₁ ht₁
  obtain ⟨last₂, hrun₂, hlast₂, -⟩ := flattenBeneath_of_stored hf₂ hs₂
  obtain ⟨hchanged₁, hs₁', ht₁'⟩ := h₁.trans_of_disjoint hlast₁ hdisjoint
  obtain ⟨hchanged₂, ht₂', hs₂'⟩ := h₂.trans_of_disjoint hlast₂ hdisjoint'
  refine ⟨last₁, last₂, hrun₁, hrun₂, hchanged₁.eq hchanged₂ hroom ?_⟩
  intro id hid
  have hcases : id ∈ s.ids ∨ id ∈ t.ids := by
    simp only [List.mem_append] at hid
    tauto
  cases hcases with
  | inl hid => exact hchanged₁.node?_eq_of_flat hchanged₂ hs₁' hs₂' (by simp) (by simp) hid
  | inr hid => exact hchanged₁.node?_eq_of_flat hchanged₂ ht₁' ht₂' (by simp) (by simp) hid

end Edit
end ExprTree
