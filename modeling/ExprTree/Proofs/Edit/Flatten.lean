import ExprTree.Proofs.Edit.Commit
import ExprTree.Proofs.Edit.Preserves
import ExprTree.Proofs.Expression.Forest
import ExprTree.Proofs.Tree.Canonical

/-!
# Flattening

Flattening beneath a node puts the flat subtree in the place of the one stored
there. The children are visited one by one: each visit flattens one subtree and
queues what the node absorbs from it, and leaves the subtrees of the others alone.
-/

namespace ExprTree

/-- The queue after visits to these children, which are flat already. -/
def Pending.queue (pending : Pending) (content : Content) (children : List Subtree) : Pending :=
  ⟨(pending.additions.toList ++
      ((Subtree.merged content children).flatMap Subtree.children).map Subtree.id).toArray,
    (pending.removals.toList ++ (Subtree.merged content children).map Subtree.id).toArray⟩

theorem Pending.queue_nil (pending : Pending) (content : Content) :
    pending.queue content [] = pending := by
  simp [queue, Subtree.merged]

theorem Pending.queue_append (pending : Pending) (content : Content) (xs ys : List Subtree) :
    pending.queue content (xs ++ ys) = (pending.queue content xs).queue content ys := by
  simp [queue, Subtree.merged]

namespace Edit

open Run Subtree

/-- One step of the visit to the children of a node. -/
def visit (levels : Nat) (child : NodeId) : Edit Fault Unit := do
  flattenWithin levels child
  stage child

theorem flattenWithin_succ_eq {draft : Draft} {id : NodeId} {node : Node}
    (h : draft.node? id = some node) (levels : Nat) :
    flattenWithin (levels + 1) id draft =
      (do
        node.children.toList.forM (visit levels)
        commit id : Edit Fault Unit) draft := by
  rw [flattenWithin, bind_of_ok (read_of_ok (Expression.children_ok h))]
  rfl

theorem stage_eq {draft : Draft} {id outer : NodeId} {node outerNode : Node}
    (hnode : draft.node? id = some node) (hparent : node.parent = some outer)
    (houter : draft.node? outer = some outerNode) :
    stage id draft =
      if outerNode.content.absorbs node.content then
        .ok () { draft.modify outer fun outerNode =>
            { outerNode with
              pending := ⟨outerNode.pending.additions ++ node.children,
                outerNode.pending.removals.push id⟩ } with
          log := draft.log.push (.splicing node.children.size id outer) }
      else
        .ok () draft := by
  unfold stage
  rw [bind_of_ok (read_of_ok (Expression.node_ok_iff.mpr hnode)), hparent]
  simp only []
  rw [bind_of_ok (read_of_ok (Expression.content_ok houter))]
  split
  · have houter' : Expression.node? (Draft.toExpression
        { draft with log := draft.log.push (.splicing node.children.size id outer) }) outer =
          some outerNode := houter
    exact (bind_of_ok (emit_eq _ draft)).trans (update_eq houter' _)
  · rfl

structure Flattened (draft draft' : Draft) (parent : Option NodeId) (t : Subtree) : Prop where
  stored : draft'.Stored parent t.flat
  changed : draft.Changed draft'.toExpression t.ids t.removed
  log : draft'.log = draft.log ++ t.splicings

theorem Flattened.tree_eq {draft draft' : Draft} {parent : Option NodeId} {t : Subtree}
    (h : Flattened draft draft' parent t) (hf' : draft'.Forest) :
    draft'.tree t.id = .ok t.tree.flat := by
  rw [← tree_flat, ← id_flat, hf'.tree_eq h.stored]

/-- What visits to some of the children of `id` have done. -/
structure Visited (draft draft' : Draft) (id : NodeId) (node : Node) (children : List Subtree) :
    Prop where
  self : draft'.node? id =
    some { node with pending := node.pending.queue node.content (children.map flat) }
  stored : ∀ child ∈ children, draft'.Stored (some id) child.flat
  changed : draft.Changed draft'.toExpression (id :: children.flatMap ids)
    (children.flatMap removed)
  log : draft'.log = draft.log ++ children.flatMap fun child => child.splicings ++
    if node.content.absorbs child.content then
      [.splicing child.flat.children.length child.id id]
    else []

namespace Visited

variable {draft middle draft' : Draft} {id : NodeId} {node : Node} {xs ys : List Subtree}

theorem nil (h : draft.node? id = some node) : Visited draft draft id node [] where
  self := by rw [List.map_nil, Pending.queue_nil, h]
  stored := by simp
  changed := (Expression.Changed.refl _).mono (by simp) (by simp)
  log := by simp

/-- Visits add up, since those to the later subtrees do not touch the earlier ones. -/
theorem append (h : Visited draft middle id node xs)
    (h' : Visited middle draft' id
      { node with pending := node.pending.queue node.content (xs.map flat) } ys)
    (hnodup : (id :: (xs ++ ys).flatMap ids).Nodup) : Visited draft draft' id node (xs ++ ys) := by
  simp only [List.flatMap_append, List.nodup_cons, List.mem_append, not_or,
    List.nodup_append] at hnodup
  obtain ⟨⟨hid, -⟩, -, -, hdisjoint⟩ := hnodup
  have huntouched : ∀ i ∈ xs.flatMap ids, i ∉ id :: ys.flatMap ids := by
    intro i hi
    rw [List.mem_cons, not_or]
    exact ⟨fun h => hid (h ▸ hi), fun hi' => hdisjoint i hi i hi' rfl⟩
  constructor
  · rw [List.map_append, Pending.queue_append]
    exact h'.self
  · intro child hchild
    cases List.mem_append.mp hchild with
    | inl hchild =>
      apply (h.stored child hchild).congr
      intro i hi
      have hi' := List.mem_flatMap.mpr ⟨child, hchild, ids_flat_subset child hi⟩
      exact h'.changed.frame i (huntouched i hi')
    | inr hchild => exact h'.stored child hchild
  · rw [List.flatMap_append, List.flatMap_append]
    apply (h.changed.trans h'.changed ?_).mono ?_ (List.Subset.refl _)
    · intro i hi
      obtain ⟨child, hchild, hi⟩ := List.mem_flatMap.mp hi
      exact huntouched i (List.mem_flatMap.mpr ⟨child, hchild, removed_subset child hi⟩)
    · intro i hi
      simp only [List.mem_append, List.mem_cons] at hi ⊢
      rcases hi with (hid | hi) | hid | hi
      · exact .inl hid
      · exact .inr (.inl hi)
      · exact .inl hid
      · exact .inr (.inr hi)
  · rw [h'.log, h.log, List.flatMap_append]
    simp [← Array.toList_inj]

end Visited

/-- The visit to a child whose subtree gets flattened. -/
theorem visit_of_flattened {draft middle : Draft} {levels : Nat} {id : NodeId} {node : Node}
    {child : Subtree} (hrun : flattenWithin levels child.id draft = .ok () middle)
    (hflat : Flattened draft middle (some id) child) (hnode : draft.node? id = some node)
    (hid : id ∉ child.ids) :
    ∃ draft', visit levels child.id draft = .ok () draft' ∧
      Visited draft draft' id node [child] := by
  have hself : middle.node? id = some node := (hflat.changed.frame id hid).trans hnode
  have hchild := hflat.stored.node?_eq
  rw [id_flat, content_flat] at hchild
  have hstage := stage_eq hchild rfl hself
  have hchanged : draft.Changed middle.toExpression (id :: child.ids) child.removed :=
    hflat.changed.mono (List.subset_cons_self _ _) (List.Subset.refl _)
  by_cases habsorbs : node.content.absorbs child.content = true
  · rw [if_pos habsorbs] at hstage
    refine ⟨_, (bind_of_ok hrun).trans hstage, ?_, ?_, ?_, ?_⟩
    · refine Draft.node?_modify_self.trans ?_
      simp [hself, Pending.queue, merged, habsorbs, ← Array.toList_inj]
    · refine List.forall_mem_singleton.mpr (hflat.stored.congr ?_)
      intro i hi
      apply Draft.node?_modify_of_ne
      rintro rfl
      exact hid (ids_flat_subset child hi)
    · have hqueued := middle.changed_modify id (fun outer => { outer with pending :=
        ⟨outer.pending.additions ++ (child.flat.children.map Subtree.id).toArray,
          outer.pending.removals.push child.id⟩ }) fun _ => rfl
      have hnone : ∀ i ∈ child.removed, i ∉ [id] := by
        intro i hi hi'
        obtain rfl := List.mem_singleton.mp hi'
        exact hid (removed_subset child hi)
      refine (hchanged.trans hqueued hnone).mono ?_ ?_ <;> simp
    · simp [hflat.log, habsorbs, ← Array.toList_inj]
  · rw [if_neg habsorbs] at hstage
    refine ⟨middle, (bind_of_ok hrun).trans hstage, ?_, ?_, ?_, ?_⟩
    · simp [hself, Pending.queue, merged, habsorbs]
    · simpa using hflat.stored
    · simpa using hchanged
    · simp [hflat.log, habsorbs]

theorem visit_all {levels : Nat} {id : NodeId} {children : List Subtree}
    (hflatten : ∀ child ∈ children, ∀ draft : Draft, draft.Stored (some id) child →
      ∃ draft', flattenWithin levels child.id draft = .ok () draft' ∧
        Flattened draft draft' (some id) child)
    {draft : Draft} {node : Node} (hnode : draft.node? id = some node)
    (hstored : ∀ child ∈ children, draft.Stored (some id) child)
    (hnodup : (id :: children.flatMap ids).Nodup) :
    ∃ draft', (children.map Subtree.id).forM (visit levels) draft = .ok () draft' ∧
      Visited draft draft' id node children := by
  induction children generalizing draft node with
  | nil => exact ⟨draft, rfl, .nil hnode⟩
  | cons child rest ih =>
    obtain ⟨hfirst, hrest⟩ := List.forall_mem_cons.mp hstored
    have hparts := hnodup
    simp only [List.flatMap_cons, List.nodup_cons, List.mem_append, not_or,
      List.nodup_append] at hparts
    obtain ⟨⟨hid, hid'⟩, -, hnodup', hdisjoint⟩ := hparts
    obtain ⟨flattened, hrun, hflat⟩ := hflatten child List.mem_cons_self draft hfirst
    obtain ⟨middle, hvisit, hvisited⟩ := visit_of_flattened hrun hflat hnode hid
    have hstored' : ∀ later ∈ rest, middle.Stored (some id) later := by
      intro later hlater
      apply (hrest later hlater).congr
      intro i hi
      apply hvisited.changed.frame
      have hi' := List.mem_flatMap.mpr ⟨later, hlater, hi⟩
      simp only [List.flatMap_cons, List.flatMap_nil, List.append_nil, List.mem_cons, not_or]
      exact ⟨fun h => hid' (h ▸ hi'), fun h => hdisjoint i h i hi' rfl⟩
    obtain ⟨last, hvisits, hvisiteds⟩ := ih
      (fun later hlater => hflatten later (List.mem_cons_of_mem _ hlater)) hvisited.self hstored'
      (List.nodup_cons.mpr ⟨hid', hnodup'⟩)
    refine ⟨last, ?_, hvisited.append hvisiteds hnodup⟩
    rw [List.map_cons, List.forM_eq_forM, List.forM_cons, bind_of_ok hvisit]
    exact hvisits

/-- Flattening beneath a node succeeds and puts the flat subtree into place. -/
theorem flattenWithin_stored {t : Subtree} {levels : Nat} (hlevels : t.height ≤ levels)
    {draft : Draft} {parent : Option NodeId} (hstored : draft.Stored parent t)
    (hnodup : t.ids.Nodup) :
    ∃ draft', flattenWithin levels t.id draft = .ok () draft' ∧
      Flattened draft draft' parent t := by
  induction t generalizing levels draft parent with
  | node id content children ih =>
    obtain ⟨levels, rfl⟩ : ∃ n, levels = n + 1 :=
      Nat.exists_eq_add_of_le' (Nat.le_trans (Subtree.height_pos _) hlevels)
    rw [height_node_le_iff] at hlevels
    have hparts := hnodup
    rw [ids_node, List.nodup_cons] at hparts
    cases hstored with
    | node hnode hleaf hchildren =>
      obtain ⟨middle, hvisits, hvisited⟩ := visit_all
        (fun child hchild draft hstored => ih child hchild (hlevels child hchild) hstored
          ((List.nodup_flatMap.mp hparts.2).1 child hchild))
        hnode hchildren (ids_node _ _ _ ▸ hnodup)
      have hqueued : Queued middle parent id content (children.map flat) := by
        refine ⟨?_, ?_, List.forall_mem_map.mpr hvisited.stored⟩
        · rw [hvisited.self]
          simp [Pending.queue, Pending.empty, Function.comp_def]
        · intro hcontent
          rw [hleaf hcontent, List.map_nil]
      have hperm := ids_map_flat_perm id content children
      have hflats := hperm.nodup_iff.mpr hnodup
      rw [List.nodup_append] at hflats
      obtain ⟨draft', hcommit, hstored', hchanged, hlog⟩ := hqueued.commit hflats.1
      refine ⟨draft', ?_, ?_, ?_, ?_⟩
      · rw [id_node, flattenWithin_succ_eq hnode, List.toList_toArray, bind_of_ok hvisits]
        exact hcommit
      · rw [flat_node]
        exact hstored'
      · refine (hvisited.changed.trans hchanged fun i hi hmem =>
          hflats.2.2 i hmem i hi rfl).mono ?_ ?_
        · refine List.append_subset.mpr ⟨?_, fun i hi => hperm.subset (List.mem_append_left _ hi)⟩
          rw [ids_node]
          exact List.Subset.refl _
        · rw [map_id_merged_flat]
          exact (removed_perm id content children).subset
      · rw [hlog, hvisited.log, splicings_node]

/-! ## Flattening in a forest -/

variable {draft : Draft} {id : NodeId}

theorem flattenBeneath_of_le (h : draft.size ≤ id.index) :
    flattenBeneath id draft = .error (.indexOutOfBounds draft.size id.index) draft := by
  show flattenWithin (draft.size + 1) id draft = _
  rw [flattenWithin, bind_of_error (read_of_error (Expression.children_of_le h))]

/-- In a forest, flattening succeeds beneath every stored subtree and leaves a forest. -/
theorem flattenBeneath_of_stored (hf : draft.Forest) {parent : Option NodeId} {t : Subtree}
    (hstored : draft.Stored parent t) :
    ∃ draft', flattenBeneath t.id draft = .ok () draft' ∧ Flattened draft draft' parent t ∧
      draft'.Forest := by
  have hnodup := hf.nodup_ids hstored
  obtain ⟨draft', hrun, hflat⟩ :=
    flattenWithin_stored (hstored.height_le hnodup) hstored hnodup
  have hreplaced : Expression.Forest.Replaced draft.toExpression draft'.toExpression t t.flat
      t.removed := ⟨hflat.changed, t.id_flat, t.ids_flat_perm⟩
  exact ⟨draft', hrun, hflat, hreplaced.forest hf hstored hflat.stored⟩

/-- The same for every node, since a subtree is stored beneath each of them. -/
theorem flattenBeneath_of_forest (hf : draft.Forest) (hid : ∃ node, draft.node? id = some node) :
    ∃ t draft', t.id = id ∧ draft.Stored (draft.parentOf id) t ∧
      flattenBeneath id draft = .ok () draft' ∧
      Flattened draft draft' (draft.parentOf id) t ∧ draft'.Forest := by
  obtain ⟨t, rfl, hstored⟩ := hf.exists_stored hid
  obtain ⟨draft', hrun, hflat, hforest⟩ := flattenBeneath_of_stored hf hstored
  exact ⟨t, draft', rfl, hstored, hrun, hflat, hforest⟩

/-- Flattening fails without a trace, if there is no such node, or flattens its subtree. -/
theorem final_flattenBeneath (hf : draft.Forest) (id : NodeId) :
    draft.size ≤ id.index ∧ final (flattenBeneath id draft) = draft ∨
      ∃ parent t, t.id = id ∧ draft.Stored parent t ∧
        Flattened draft (final (flattenBeneath id draft)) parent t ∧
        (final (flattenBeneath id draft)).Forest := by
  by_cases hid : id.index < draft.size
  · obtain ⟨t, draft', htop, hstored, hrun, hflat, hforest⟩ :=
      flattenBeneath_of_forest hf (Expression.node?_isSome_iff.mpr hid)
    rw [hrun]
    exact .inr ⟨_, t, htop, hstored, hflat, hforest⟩
  · rw [flattenBeneath_of_le (Nat.le_of_not_lt hid)]
    exact .inl ⟨Nat.le_of_not_lt hid, rfl⟩

theorem forest_flattenBeneath (id : NodeId) :
    Preserves Expression.Forest (flattenBeneath id) := by
  intro draft hf
  obtain ⟨-, hsame⟩ | ⟨_, _, -, -, -, hforest⟩ := final_flattenBeneath hf id
  · rwa [hsame]
  · exact hforest

theorem forest_flatten : Preserves Expression.Forest flatten :=
  fun draft => forest_flattenBeneath draft.root draft

/-! ## Flat subtrees -/

theorem isFlat_of_canonical {e : Expression} {parent : Option NodeId} {t : Subtree}
    (h : e.Stored parent t) (hcanonical : t.tree.Canonical) : t.IsFlat := by
  induction h with
  | @node parent id content children hnode hleaf _ ih =>
    have hchildren : ∀ child ∈ children,
        content.absorbs child.content = false ∧ child.IsFlat := by
      intro child hchild
      cases content with
      | literal l => simp [hleaf rfl] at hchild
      | compound kind =>
        rw [tree_compound] at hcanonical
        obtain ⟨hchild', habsorbs⟩ := hcanonical.of_mem (List.mem_map_of_mem hchild)
        rw [content_tree] at habsorbs
        exact ⟨habsorbs, ih child hchild hchild'⟩
    exact .node (fun child hchild => (hchildren child hchild).1) fun child hchild =>
      (hchildren child hchild).2

/-- Flattening leaves a flat subtree exactly as it is and makes no record. -/
theorem Flattened.eq_of_isFlat {draft draft' : Draft} {parent : Option NodeId} {t : Subtree}
    (h : Flattened draft draft' parent t) (hstored : draft.Stored parent t)
    (hisFlat : t.IsFlat) (hroom : draft.size ≤ 2 ^ 32) : draft' = draft := by
  obtain ⟨hflat, -, hsplicings⟩ := hisFlat.eq
  have hstored' := h.stored
  rw [hflat] at hstored'
  have hnode : ∀ id, draft'.node? id = draft.node? id := by
    intro id
    by_cases hid : id ∈ t.ids
    · exact hstored.node?_eq_node? hstored' hid
    · exact h.changed.frame id hid
  have hexpression := Expression.ext_node? h.changed.root h.changed.size hroom hnode
  have hlog := h.log
  rw [hsplicings] at hlog
  cases draft
  cases draft'
  simp_all

end Edit
end ExprTree
