import ExprTree.Proofs.Subtree.Flat

/-!
# Parts of subtrees

A part of a subtree is the subtree itself or a part of one of its children. Flattening
the whole flattens every part that is not absorbed. Flattening a part alone and the
whole afterwards is the same as flattening the whole, and removes the same nodes.
-/

namespace ExprTree.Subtree

open scoped List

inductive PartOf (part : Subtree) : Subtree → Prop where
  | refl : PartOf part part
  | step {t child : Subtree} : child ∈ t.children → PartOf part child → PartOf part t

theorem ids_sublist_of_mem_children {t child : Subtree} (h : child ∈ t.children) :
    child.ids.Sublist t.ids := by
  cases t
  exact ids_sublist_of_mem h

/-- The topmost handle does not come again below when no handle is repeated. -/
theorem id_not_mem_ids_of_mem_children {t child : Subtree} (hnodup : t.ids.Nodup)
    (h : child ∈ t.children) : t.id ∉ child.ids := by
  cases t with
  | node id content children =>
    rw [ids_node, List.nodup_cons] at hnodup
    exact fun hmem => hnodup.1 (List.mem_flatMap.mpr ⟨child, h, hmem⟩)

theorem exists_partOf {t : Subtree} {i : NodeId} (h : i ∈ t.ids) :
    ∃ part : Subtree, part.PartOf t ∧ part.id = i := by
  induction t with
  | node id content children ih =>
    obtain rfl | ⟨child, hchild, hi⟩ := mem_ids_node.mp h
    · exact ⟨_, .refl, rfl⟩
    · obtain ⟨part, hpart, rfl⟩ := ih child hchild hi
      exact ⟨part, .step hchild hpart, rfl⟩

namespace PartOf

variable {part t : Subtree}

theorem ids_sublist (h : part.PartOf t) : part.ids.Sublist t.ids := by
  induction h with
  | refl => exact .refl _
  | step hchild _ ih => exact ih.trans (ids_sublist_of_mem_children hchild)

theorem id_mem_ids (h : part.PartOf t) : part.id ∈ t.ids :=
  h.ids_sublist.subset part.id_mem_ids

theorem eq_or_exists (h : part.PartOf t) : part = t ∨ ∃ child ∈ t.children, part.PartOf child := by
  cases h with
  | refl => exact .inl rfl
  | step hchild hpart => exact .inr ⟨_, hchild, hpart⟩

/-- Only the whole contains the topmost node. -/
theorem eq_of_id_mem (h : part.PartOf t) (hnodup : t.ids.Nodup) (hid : t.id ∈ part.ids) :
    part = t := by
  cases h with
  | refl => rfl
  | step hchild hpart =>
    exact absurd (hpart.ids_sublist.subset hid) (id_not_mem_ids_of_mem_children hnodup hchild)

end PartOf

theorem IsFlat.of_partOf {part t : Subtree} (h : t.IsFlat) (hpart : part.PartOf t) :
    part.IsFlat := by
  induction hpart with
  | refl => exact h
  | step hchild _ ih => exact ih (h.child hchild)

/-! ## What becomes of the parts -/

/-- The removed nodes are those that the node above them absorbs. -/
theorem mem_removed_iff {t : Subtree} {i : NodeId} :
    i ∈ t.removed ↔ ∃ outer : Subtree, outer.PartOf t ∧
      ∃ child ∈ outer.children, outer.content.absorbs child.content = true ∧ child.id = i := by
  induction t with
  | node id content children ih =>
    rw [removed_node, List.mem_flatMap]
    constructor
    · rintro ⟨child, hchild, hi⟩
      cases List.mem_append.mp hi with
      | inl hi =>
        obtain ⟨outer, houter, hfound⟩ := (ih child hchild).mp hi
        exact ⟨outer, .step hchild houter, hfound⟩
      | inr hi =>
        by_cases habsorbs : content.absorbs child.content = true
        · rw [if_pos habsorbs, List.mem_singleton] at hi
          exact ⟨_, .refl, child, hchild, habsorbs, hi.symm⟩
        · rw [if_neg habsorbs] at hi
          cases hi
    · rintro ⟨outer, houter, child, hchild, habsorbs, rfl⟩
      cases houter with
      | refl =>
        rw [content_node] at habsorbs
        exact ⟨child, hchild, by simp [habsorbs]⟩
      | @step _ middle hmiddle houter =>
        have hmem := (ih middle hmiddle).mpr ⟨outer, houter, child, hchild, habsorbs, rfl⟩
        exact ⟨middle, hmiddle, List.mem_append_left _ hmem⟩

/-- A part that is not removed is flattened with the whole. -/
theorem PartOf.flat {part t : Subtree} (h : part.PartOf t) (hkept : part.id ∉ t.removed) :
    part.flat.PartOf t.flat := by
  induction h with
  | refl => exact .refl
  | @step t child hchild hpart ih =>
    cases t with
    | node id content children =>
      rw [removed_node, List.mem_flatMap, not_exists] at hkept
      have hkept := mt List.mem_append.mpr fun hmem => hkept child ⟨hchild, hmem⟩
      rw [not_or] at hkept
      have hflat := ih hkept.1
      have hmem : child.flat ∈ children.map Subtree.flat := List.mem_map_of_mem hchild
      rw [flat_node, absorb]
      by_cases habsorbs : content.absorbs child.content = true
      · -- The child itself is removed, and the part lies in one of its children.
        rw [if_pos habsorbs, List.mem_singleton] at hkept
        obtain heq | ⟨next, hnext, hpart⟩ := hflat.eq_or_exists
        · exact absurd (by rw [← id_flat part, heq, id_flat]) hkept.2
        · have hmerged : child.flat ∈ merged content (children.map Subtree.flat) :=
            List.mem_filter.mpr ⟨hmem, by rwa [content_flat]⟩
          exact .step (List.mem_append_right _ (List.mem_flatMap.mpr ⟨_, hmerged, hnext⟩)) hpart
      · refine .step (List.mem_append_left _ (List.mem_filter.mpr ⟨hmem, ?_⟩)) hflat
        simpa using habsorbs

/-! ## Flattening a part alone -/

/-- The subtree with the part beneath the node `target` flattened. -/
def flatAt (target : NodeId) : Subtree → Subtree
  | node id content children =>
    if id = target then (node id content children).flat
    else node id content (children.map (flatAt target))

theorem flatAt_self (t : Subtree) : t.flatAt t.id = t.flat := by
  cases t
  rw [flatAt, id_node, if_pos rfl]

theorem flatAt_node_of_ne {id target : NodeId} (h : id ≠ target) (content : Content)
    (children : List Subtree) :
    (node id content children).flatAt target =
      node id content (children.map (flatAt target)) := by
  rw [flatAt, if_neg h]

@[simp] theorem id_flatAt (target : NodeId) (t : Subtree) : (t.flatAt target).id = t.id := by
  cases t
  rw [flatAt]
  split
  · exact id_flat _
  · rfl

@[simp] theorem content_flatAt (target : NodeId) (t : Subtree) :
    (t.flatAt target).content = t.content := by
  cases t
  rw [flatAt]
  split
  · exact content_flat _
  · rfl

theorem flatAt_of_not_mem {target : NodeId} {t : Subtree} (h : target ∉ t.ids) :
    t.flatAt target = t := by
  induction t with
  | node id content children ih =>
    rw [mem_ids_node, not_or] at h
    have hsame : ∀ child ∈ children, child.flatAt target = child := fun child hchild =>
      ih child hchild fun hmem => h.2 ⟨child, hchild, hmem⟩
    rw [flatAt_node_of_ne (Ne.symm h.1), List.map_congr_left hsame, List.map_id']

theorem map_flatAt_of_not_mem {target : NodeId} {children : List Subtree}
    (h : ∀ i ∈ children.flatMap ids, target ≠ i) :
    children.map (flatAt target) = children := by
  have hsame : ∀ child ∈ children, child.flatAt target = child := fun child hchild =>
    flatAt_of_not_mem fun hmem => h target (List.mem_flatMap.mpr ⟨child, hchild, hmem⟩) rfl
  rw [List.map_congr_left hsame, List.map_id']

/-- Flattening the whole does again what was done to a part, and the rest besides. -/
theorem flat_flatAt (target : NodeId) (t : Subtree) : (t.flatAt target).flat = t.flat := by
  induction t with
  | node id content children ih =>
    by_cases hid : id = target
    · subst hid
      exact (congrArg Subtree.flat (flatAt_self (node id content children))).trans (flat_flat _)
    · have hchildren : (children.map (flatAt target)).map Subtree.flat = children.map Subtree.flat := by
        rw [List.map_map]
        exact List.map_congr_left ih
      rw [flatAt_node_of_ne hid, flat_node, flat_node, hchildren]

/-- Flattening a part of what is flat has nothing to do. -/
theorem IsFlat.flatAt_eq {t : Subtree} (h : t.IsFlat) (target : NodeId) : t.flatAt target = t := by
  induction h with
  | @node id content children habsorbs hchildren ih =>
    by_cases hid : id = target
    · subst hid
      exact (flatAt_self (.node id content children)).trans (IsFlat.node habsorbs hchildren).eq.1
    · rw [flatAt_node_of_ne hid, List.map_congr_left ih, List.map_id']

/-- Only the child that the part lies in is changed. -/
theorem exists_map_flatAt {part child : Subtree} {children : List Subtree}
    (hnodup : (children.flatMap ids).Nodup) (hchild : child ∈ children)
    (hpart : part.PartOf child) :
    ∃ front back, children = front ++ child :: back ∧
      children.map (flatAt part.id) = front ++ child.flatAt part.id :: back := by
  obtain ⟨front, back, rfl⟩ := List.append_of_mem hchild
  refine ⟨front, back, rfl, ?_⟩
  simp only [List.flatMap_append, List.flatMap_cons, List.nodup_append, List.mem_append] at hnodup
  obtain ⟨-, ⟨-, -, hback⟩, hfront⟩ := hnodup
  have hfrontSame : front.map (flatAt part.id) = front := map_flatAt_of_not_mem fun i hi =>
    Ne.symm (hfront i hi _ (.inl hpart.id_mem_ids))
  have hbackSame : back.map (flatAt part.id) = back :=
    map_flatAt_of_not_mem (hback part.id hpart.id_mem_ids)
  rw [List.map_append, List.map_cons, hfrontSame, hbackSame]

/-- Every handle is either still in the subtree or was removed from the part. -/
theorem ids_flatAt_perm {part t : Subtree} (h : part.PartOf t) (hnodup : t.ids.Nodup) :
    (t.flatAt part.id).ids ++ part.removed ~ t.ids := by
  induction h with
  | refl =>
    rw [flatAt_self]
    exact part.ids_flat_perm
  | @step t child hchild hpart ih =>
    cases t with
    | node id content children =>
      have hne : id ≠ part.id := by
        rintro rfl
        exact id_not_mem_ids_of_mem_children hnodup hchild hpart.id_mem_ids
      have hbelow := ih (hnodup.sublist (ids_sublist_of_mem_children hchild))
      rw [ids_node, List.nodup_cons] at hnodup
      rw [children_node] at hchild
      obtain ⟨front, back, rfl, hmap⟩ := exists_map_flatAt hnodup.2 hchild hpart
      rw [flatAt_node_of_ne hne, hmap, ids_node, ids_node, List.cons_append, List.perm_cons,
        List.flatMap_append, List.flatMap_append, List.append_assoc, List.flatMap_cons,
        List.flatMap_cons, List.append_assoc]
      apply List.Perm.append_left
      calc (child.flatAt part.id).ids ++ (back.flatMap ids ++ part.removed)
        _ ~ (child.flatAt part.id).ids ++ (part.removed ++ back.flatMap ids) :=
          List.perm_append_comm.append_left _
        _ ~ child.ids ++ back.flatMap ids := by
          rw [← List.append_assoc]
          exact hbelow.append_right _

/-- Flattening the whole after a part removes the rest of what it would have removed. -/
theorem removed_flatAt_perm {part t : Subtree} (h : part.PartOf t) (hnodup : t.ids.Nodup) :
    part.removed ++ (t.flatAt part.id).removed ~ t.removed := by
  have hflat := (t.flatAt part.id).ids_flat_perm
  rw [flat_flatAt] at hflat
  apply (List.perm_append_left_iff t.flat.ids).mp
  calc t.flat.ids ++ (part.removed ++ (t.flatAt part.id).removed)
    _ ~ t.flat.ids ++ ((t.flatAt part.id).removed ++ part.removed) :=
      List.perm_append_comm.append_left _
    _ ~ (t.flatAt part.id).ids ++ part.removed := by
      rw [← List.append_assoc]
      exact hflat.append_right _
    _ ~ t.ids := ids_flatAt_perm h hnodup
    _ ~ t.flat.ids ++ t.removed := t.ids_flat_perm.symm

theorem ids_flatAt_subset {part t : Subtree} (h : part.PartOf t) (hnodup : t.ids.Nodup) :
    (t.flatAt part.id).ids ⊆ t.ids :=
  fun _ hi => (ids_flatAt_perm h hnodup).subset (List.mem_append_left _ hi)

end ExprTree.Subtree
