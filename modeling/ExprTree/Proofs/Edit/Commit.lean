import ExprTree.Edit.Flatten
import ExprTree.Proofs.Expression.Change
import ExprTree.Proofs.Expression.Stored
import ExprTree.Proofs.Subtree.Flat

/-!
# Applying queued changes

A node queues the children of those that it absorbs, and then the absorbed ones
themselves. When the queue has been applied, the subtree which was stored beneath
the node has become the one in which the node has absorbed them.
-/

namespace ExprTree.Edit

open Run Subtree

/-- Makes `added` the last child of `id`. -/
def adopt (id added : NodeId) : Edit Fault Unit := do
  update added fun node => { node with parent := some id }
  update id fun node => { node with children := node.children.push added }

/-- Detaches `removed`, a child of `id`, from everything around it. -/
def release (id removed : NodeId) : Edit Fault Unit := do
  update id fun node => { node with children := node.children.filter (· != removed) }
  update removed fun node => { node with parent := none, children := #[] }

theorem commit_eq {draft : Draft} {id : NodeId} {node : Node} (h : draft.node? id = some node) :
    commit id draft =
      (do
        node.pending.additions.toList.forM (adopt id)
        node.pending.removals.toList.forM (release id) : Edit Fault Unit)
      (draft.modify id fun node => { node with pending := Pending.empty }) := by
  unfold commit
  rw [bind_of_ok (read_of_ok (Expression.node_ok_iff.mpr h)), bind_of_ok (update_eq h _)]
  rfl

section Loop

variable {step : NodeId → Edit Fault Unit} {inner : Node → Node} {outer : NodeId → Node → Node}
  {id : NodeId}

/-- The loops over a queue change the node `id` and another one in each step. -/
def Steps (step : NodeId → Edit Fault Unit) (id : NodeId) (inner : Node → Node)
    (outer : NodeId → Node → Node) : Prop :=
  ∀ ⦃draft : Draft⦄ ⦃other : NodeId⦄ ⦃node node' : Node⦄, other ≠ id →
    draft.node? id = some node → draft.node? other = some node' →
    ∃ draft' : Draft, step other draft = .ok () draft' ∧
      draft.Changed draft'.toExpression [id, other] [] ∧ draft'.log = draft.log ∧
      draft'.node? id = some (outer other node) ∧ draft'.node? other = some (inner node')

theorem steps_adopt (id : NodeId) :
    Steps (adopt id) id (fun node => { node with parent := some id })
      (fun added node => { node with children := node.children.push added }) := by
  intro draft other node node' hne hnode hother
  have hnode' : (draft.modify other fun node => { node with parent := some id }).node? id =
      some node := by
    rw [Draft.node?_modify_of_ne hne.symm, hnode]
  refine ⟨_, (bind_of_ok (update_eq hother _)).trans (update_eq hnode' _), ?_, rfl, ?_, ?_⟩
  · have hinner := draft.changed_modify other (fun node => { node with parent := some id })
      fun _ => rfl
    have houter := Draft.changed_modify
      (draft.modify other fun node => { node with parent := some id }) id
      (fun node => { node with children := node.children.push other }) fun _ => rfl
    exact (hinner.trans houter (by simp)).mono (by simp) (by simp)
  · rw [Draft.node?_modify_self, hnode']
    rfl
  · rw [Draft.node?_modify_of_ne hne, Draft.node?_modify_self, hother]
    rfl

theorem steps_release (id : NodeId) :
    Steps (release id) id (fun node => { node with parent := none, children := #[] })
      (fun removed node => { node with children := node.children.filter (· != removed) }) := by
  intro draft other node node' hne hnode hother
  have hother' : (draft.modify id fun node =>
      { node with children := node.children.filter (· != other) }).node? other = some node' := by
    rw [Draft.node?_modify_of_ne hne, hother]
  refine ⟨_, (bind_of_ok (update_eq hnode _)).trans (update_eq hother' _), ?_, rfl, ?_, ?_⟩
  · have houter := draft.changed_modify id
      (fun node => { node with children := node.children.filter (· != other) }) fun _ => rfl
    have hinner := Draft.changed_modify
      (draft.modify id fun node => { node with children := node.children.filter (· != other) })
      other (fun node => { node with parent := none, children := #[] }) fun _ => rfl
    exact (houter.trans hinner (by simp)).mono (by simp) (by simp)
  · rw [Draft.node?_modify_of_ne hne.symm, Draft.node?_modify_self, hnode]
    rfl
  · rw [Draft.node?_modify_self, hother']
    rfl

/-- What such a loop does to a queue of different nodes. -/
theorem Steps.forM (hsteps : Steps step id inner outer) {queue : List NodeId} {draft : Draft}
    {node : Node} (hnode : draft.node? id = some node)
    (hqueue : ∀ other ∈ queue, ∃ node', draft.node? other = some node')
    (hnodup : (id :: queue).Nodup) :
    ∃ draft' : Draft, queue.forM step draft = .ok () draft' ∧
      draft.Changed draft'.toExpression (id :: queue) [] ∧ draft'.log = draft.log ∧
      draft'.node? id = some (queue.foldl (fun node other => outer other node) node) ∧
      ∀ other ∈ queue, draft'.node? other = (draft.node? other).map inner := by
  induction queue generalizing draft node with
  | nil =>
    have hchanged := (Expression.Changed.refl draft.toExpression).mono
      (List.nil_subset [id]) (List.Subset.refl [])
    exact ⟨draft, rfl, hchanged, rfl, hnode, by simp⟩
  | cons first rest ih =>
    obtain ⟨hfirst, hrest⟩ := List.forall_mem_cons.mp hqueue
    obtain ⟨node', hnode'⟩ := hfirst
    simp only [List.nodup_cons, List.mem_cons, not_or] at hnodup
    obtain ⟨⟨hne, hid⟩, hfresh, hnodup⟩ := hnodup
    obtain ⟨middle, hrun, hchanged, hlog, hself, hother⟩ := hsteps (Ne.symm hne) hnode hnode'
    have hsame : ∀ other ∈ rest, middle.node? other = draft.node? other := by
      intro other hmem
      apply hchanged.frame
      simp only [List.mem_cons, List.not_mem_nil, or_false, not_or]
      exact ⟨fun h => hid (h ▸ hmem), fun h => hfresh (h ▸ hmem)⟩
    obtain ⟨last, hruns, hchanged', hlog', hself', hothers⟩ := ih hself
      (fun other hmem => by rw [hsame other hmem]; exact hrest other hmem)
      (List.nodup_cons.mpr ⟨hid, hnodup⟩)
    refine ⟨last, ?_, (hchanged.trans hchanged' (by simp)).mono ?_ (by simp), hlog'.trans hlog,
      hself', List.forall_mem_cons.mpr ⟨?_, fun other hmem => ?_⟩⟩
    · rw [List.forM_eq_forM, List.forM_cons, bind_of_ok hrun]
      exact hruns
    · intro other
      simp
      tauto
    · rw [hchanged'.frame first (by simp [Ne.symm hne, hfresh]), hother, hnode']
      rfl
    · rw [hothers other hmem, hsame other hmem]

end Loop

theorem foldl_push (node : Node) (queue : List NodeId) :
    queue.foldl (fun node added => { node with children := node.children.push added }) node =
      { node with children := (node.children.toList ++ queue).toArray } := by
  induction queue generalizing node with
  | nil => simp
  | cons first rest ih => simp [ih]

theorem foldl_filter (node : Node) (queue : List NodeId) :
    queue.foldl (fun node removed =>
        { node with children := node.children.filter (· != removed) }) node =
      { node with children := (node.children.toList.filter fun id => id ∉ queue).toArray } := by
  induction queue generalizing node with
  | nil => simp
  | cons first rest ih =>
    rw [List.foldl_cons, ih]
    simp [List.filter_filter, bne, beq_eq_decide, Bool.and_comm]

/-- What applying a queue does, node by node. -/
structure Committed (draft draft' : Draft) (id : NodeId) (node : Node)
    (added removed : List NodeId) : Prop where
  changed : draft.Changed draft'.toExpression (id :: (added ++ removed)) []
  log : draft'.log = draft.log
  self : draft'.node? id = some
    { node with
      children := ((node.children.toList ++ added).filter fun i => i ∉ removed).toArray
      pending := Pending.empty }
  adopted : ∀ other ∈ added, draft'.node? other =
    (draft.node? other).map fun node => { node with parent := some id }
  released : ∀ other ∈ removed, draft'.node? other =
    (draft.node? other).map fun node => { node with parent := none, children := #[] }

theorem Committed.frame {draft draft' : Draft} {id i : NodeId} {node : Node}
    {added removed : List NodeId} (h : Committed draft draft' id node added removed) (hid : i ≠ id)
    (hadded : i ∉ added) (hremoved : i ∉ removed) : draft'.node? i = draft.node? i := by
  apply h.changed.frame
  rw [List.mem_cons, List.mem_append, not_or, not_or]
  exact ⟨hid, hadded, hremoved⟩

theorem exists_committed {draft : Draft} {id : NodeId} (node : Node) {added removed : List NodeId}
    (hnode : draft.node? id = some { node with pending := ⟨added.toArray, removed.toArray⟩ })
    (hadded : ∀ other ∈ added, ∃ node', draft.node? other = some node')
    (hremoved : ∀ other ∈ removed, ∃ node', draft.node? other = some node')
    (hnodup : (id :: added).Nodup) (hnodup' : (id :: removed).Nodup)
    (hapart : ∀ other ∈ added, other ∉ removed) :
    ∃ draft', commit id draft = .ok () draft' ∧ Committed draft draft' id node added removed := by
  let emptied := draft.modify id fun node => { node with pending := Pending.empty }
  have hself : emptied.node? id = some { node with pending := Pending.empty } := by
    rw [Draft.node?_modify_self, hnode]
    rfl
  have hsame : ∀ other, other ≠ id → emptied.node? other = draft.node? other := by
    intro other hne
    exact Draft.node?_modify_of_ne hne
  have hchanged : draft.Changed emptied.toExpression [id] [] :=
    draft.changed_modify id _ fun _ => rfl
  have hne : ∀ other ∈ added, other ≠ id := by
    rintro other hmem rfl
    exact (List.nodup_cons.mp hnodup).1 hmem
  have hne' : ∀ other ∈ removed, other ≠ id := by
    rintro other hmem rfl
    exact (List.nodup_cons.mp hnodup').1 hmem
  obtain ⟨middle, hadopt, hchanged₁, hlog₁, hself₁, hadded₁⟩ :=
    (steps_adopt id).forM hself
      (fun other hmem => by rw [hsame other (hne other hmem)]; exact hadded other hmem) hnodup
  have hsame₁ : ∀ other ∈ removed, middle.node? other = draft.node? other := by
    intro other hmem
    rw [hchanged₁.frame other, hsame other (hne' other hmem)]
    rw [List.mem_cons, not_or]
    exact ⟨hne' other hmem, fun h => hapart other h hmem⟩
  obtain ⟨last, hrelease, hchanged₂, hlog₂, hself₂, hremoved₂⟩ :=
    (steps_release id).forM hself₁
      (fun other hmem => by rw [hsame₁ other hmem]; exact hremoved other hmem) hnodup'
  refine ⟨last, ?_, ?_, hlog₂.trans hlog₁, ?_, ?_, ?_⟩
  · rw [commit_eq hnode]
    exact (bind_of_ok hadopt).trans hrelease
  · apply ((hchanged.trans hchanged₁ (by simp)).trans hchanged₂ (by simp)).mono ?_ (by simp)
    intro other
    simp
    tauto
  · rw [hself₂, foldl_push, foldl_filter]
  · intro other hmem
    rw [hchanged₂.frame other, hadded₁ other hmem, hsame other (hne other hmem)]
    rw [List.mem_cons, not_or]
    exact ⟨hne other hmem, hapart other hmem⟩
  · intro other hmem
    rw [hremoved₂ other hmem, hsame₁ other hmem]

section Absorb

variable {draft : Draft} {id : NodeId} {content : Content} {parent : Option NodeId}
  {children : List Subtree}

/-- The node `id` with its subtrees as they are, waiting to absorb some of them. -/
structure Queued (draft : Draft) (parent : Option NodeId) (id : NodeId) (content : Content)
    (children : List Subtree) : Prop where
  node : draft.node? id = some
    ⟨content, parent, (children.map Subtree.id).toArray,
      ⟨(((merged content children).flatMap Subtree.children).map Subtree.id).toArray,
        ((merged content children).map Subtree.id).toArray⟩⟩
  leaf : content.isCompound = false → children = []
  stored : ∀ child ∈ children, draft.Stored (some id) child

/-- The children that are kept, those that move up and the nodes they leave behind. -/
structure Apart (id : NodeId) (kept moved merged : List Subtree) : Prop where
  of_kept : ∀ i ∈ kept.flatMap ids, i ≠ id ∧ i ∉ moved.flatMap ids ∧ i ∉ merged.map Subtree.id
  of_moved : ∀ i ∈ moved.flatMap ids, i ≠ id ∧ i ∉ merged.map Subtree.id
  nodup_moved : (id :: moved.flatMap ids).Nodup
  nodup_merged : (id :: merged.map Subtree.id).Nodup

theorem apart (hnodup : (Subtree.node id content children).ids.Nodup) :
    Apart id (kept content children) ((merged content children).flatMap Subtree.children)
      (merged content children) := by
  have hparts := (ids_absorb_perm id content children).nodup_iff.mpr hnodup
  rw [absorb, ids_node, List.flatMap_append] at hparts
  simp only [List.cons_append, List.append_assoc, List.nodup_cons, List.nodup_append,
    List.mem_append, not_or] at hparts
  obtain ⟨⟨hk, hv, hm⟩, -, ⟨hnv, hnm, hvm⟩, hkvm⟩ := hparts
  refine ⟨?_, ?_, List.nodup_cons.mpr ⟨hv, hnv⟩, List.nodup_cons.mpr ⟨hm, hnm⟩⟩
  · intro i hi
    exact ⟨fun h => hk (h ▸ hi), fun h => hkvm i hi i (.inl h) rfl,
      fun h => hkvm i hi i (.inr h) rfl⟩
  · intro i hi
    exact ⟨fun h => hv (h ▸ hi), fun h => hvm i hi i h rfl⟩

theorem filter_merged (hapart : Apart id (kept content children)
      ((merged content children).flatMap Subtree.children) (merged content children)) :
    ((children ++ (merged content children).flatMap Subtree.children).map Subtree.id).filter
        (fun i => i ∉ (merged content children).map Subtree.id) =
      (kept content children ++
        (merged content children).flatMap Subtree.children).map Subtree.id := by
  rw [List.map_append, List.filter_append, List.map_append]
  congr 1
  · rw [List.filter_map, kept]
    congr 1
    apply List.filter_congr
    intro child hchild
    by_cases habsorbs : content.absorbs child.content = true
    · have hmem : child ∈ merged content children := List.mem_filter.mpr ⟨hchild, habsorbs⟩
      simpa [habsorbs] using ⟨child, hmem, rfl⟩
    · have hmem : child ∈ kept content children :=
        List.mem_filter.mpr ⟨hchild, by simpa using habsorbs⟩
      have := (hapart.of_kept child.id (List.mem_flatMap.mpr ⟨child, hmem, child.id_mem_ids⟩)).2.2
      simpa [habsorbs] using this
  · apply List.filter_eq_self.mpr
    intro i hi
    have := (hapart.of_moved i ((map_id_sublist _).subset hi)).2
    simpa using this

namespace Queued

theorem stored_merged (h : Queued draft parent id content children) {child : Subtree}
    (hchild : child ∈ merged content children) : draft.Stored (some id) child :=
  h.stored child (List.mem_of_mem_filter hchild)

theorem stored_moved (h : Queued draft parent id content children) {child : Subtree}
    (hchild : child ∈ (merged content children).flatMap Subtree.children) :
    ∃ above, draft.Stored above child := by
  obtain ⟨outer, houter, hchild⟩ := List.mem_flatMap.mp hchild
  exact ⟨_, (h.stored_merged houter).child hchild⟩

theorem exists_committed (h : Queued draft parent id content children)
    (hapart : Apart id (kept content children)
      ((merged content children).flatMap Subtree.children) (merged content children)) :
    ∃ draft', Edit.commit id draft = .ok () draft' ∧
      Committed draft draft' id
        ⟨content, parent, (children.map Subtree.id).toArray, Pending.empty⟩
        (((merged content children).flatMap Subtree.children).map Subtree.id)
        ((merged content children).map Subtree.id) := by
  apply Edit.exists_committed _ h.node
  · refine List.forall_mem_map.mpr ?_
    intro child hchild
    obtain ⟨above, hstored⟩ := h.stored_moved hchild
    exact ⟨_, hstored.node?_eq⟩
  · refine List.forall_mem_map.mpr ?_
    intro child hchild
    exact ⟨_, (h.stored_merged hchild).node?_eq⟩
  · exact hapart.nodup_moved.sublist ((map_id_sublist _).cons_cons id)
  · exact hapart.nodup_merged
  · intro i hi
    exact (hapart.of_moved i ((map_id_sublist _).subset hi)).2

variable {draft' : Draft}

/-- The children that are kept stay as they are, and those that move up come beneath `id`. -/
theorem stored_of_committed (h : Queued draft parent id content children)
    (hapart : Apart id (kept content children)
      ((merged content children).flatMap Subtree.children) (merged content children))
    (hcommitted : Committed draft draft' id
      ⟨content, parent, (children.map Subtree.id).toArray, Pending.empty⟩
      (((merged content children).flatMap Subtree.children).map Subtree.id)
      ((merged content children).map Subtree.id)) :
    draft'.Stored parent (absorb id content children) := by
  have hself := hcommitted.self
  rw [List.toList_toArray, ← List.map_append, filter_merged hapart] at hself
  have hnodup := List.nodup_cons.mp hapart.nodup_moved
  refine .node hself ?_ ?_
  · intro hcontent
    simp [h.leaf hcontent, kept, merged]
  · intro child hchild
    cases List.mem_append.mp hchild with
    | inl hchild =>
      apply (h.stored child (List.mem_of_mem_filter hchild)).congr
      intro i hi
      obtain ⟨hid, hi, hi'⟩ := hapart.of_kept i (List.mem_flatMap.mpr ⟨child, hchild, hi⟩)
      exact hcommitted.frame hid (fun hmem => hi ((map_id_sublist _).subset hmem)) hi'
    | inr hchild =>
      obtain ⟨above, hstored⟩ := h.stored_moved hchild
      apply hstored.reparent (hcommitted.adopted child.id (List.mem_map_of_mem hchild))
      · intro i hi hne
        obtain ⟨hid, hi'⟩ := hapart.of_moved i (List.mem_flatMap.mpr ⟨child, hchild, hi⟩)
        refine hcommitted.frame hid ?_ hi'
        intro hmem
        obtain ⟨other, hother, rfl⟩ := List.mem_map.mp hmem
        exact hne (by rw [eq_of_mem_ids hnodup.2 hchild hother hi other.id_mem_ids])
      · exact (List.nodup_flatMap.mp hnodup.2).1 child hchild

/-- Applying the queue of a node makes it absorb the subtrees that it absorbs. -/
theorem commit (h : Queued draft parent id content children)
    (hnodup : (Subtree.node id content children).ids.Nodup) :
    ∃ draft', Edit.commit id draft = .ok () draft' ∧
      draft'.Stored parent (absorb id content children) ∧
      draft.Changed draft'.toExpression (Subtree.node id content children).ids
        ((merged content children).map Subtree.id) ∧
      draft'.log = draft.log := by
  have hapart := apart hnodup
  obtain ⟨draft', hrun, hcommitted⟩ := h.exists_committed hapart
  refine ⟨draft', hrun, h.stored_of_committed hapart hcommitted, ?_, hcommitted.log⟩
  apply (hcommitted.changed.mono ?_ (List.Subset.refl _)).of_detached
  · refine List.forall_mem_map.mpr ?_
    intro child hchild
    refine ⟨child.content, ?_⟩
    rw [hcommitted.released child.id (List.mem_map_of_mem hchild),
      (h.stored_merged hchild).node?_eq]
    rfl
  · intro i hi
    rw [← (ids_absorb_perm id content children).mem_iff, absorb, ids_node, List.flatMap_append]
    simp only [List.mem_cons, List.mem_append] at hi ⊢
    rcases hi with hid | hi | hi
    · exact .inl (.inl hid)
    · exact .inl (.inr (.inr ((map_id_sublist _).subset hi)))
    · exact .inr hi

end Queued

end Absorb

end ExprTree.Edit
