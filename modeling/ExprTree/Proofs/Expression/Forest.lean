import ExprTree.Proofs.Expression.Change
import ExprTree.Proofs.Expression.Stored

/-!
# Forests

The links of an expression run both ways. They agree when every node is among the
children of its parent and of no other node, and then each node lies on one way up.
If all of these ways end, the nodes form a forest: beneath every node there is a
stored subtree, none of whose handles is repeated.
-/

namespace ExprTree

namespace Expression

/-- The way up from a node through its parents, which ends at a node without one. -/
inductive Ascends (e : Expression) : NodeId → List NodeId → Prop where
  | top {id : NodeId} : e.parentOf id = none → Ascends e id [id]
  | step {id parent : NodeId} {way : List NodeId} :
      e.parentOf id = some parent → Ascends e parent way → Ascends e id (id :: way)

namespace Ascends

variable {e : Expression} {id : NodeId} {way way' : List NodeId}

theorem unique (h : e.Ascends id way) (h' : e.Ascends id way') : way = way' := by
  induction h generalizing way' with
  | top hnone =>
    cases h' with
    | top _ => rfl
    | step hparent _ => simp [hnone] at hparent
  | step hparent _ ih =>
    cases h' with
    | top hnone => simp [hnone] at hparent
    | step hparent' hway' =>
      obtain rfl := Option.some.inj (hparent.symm.trans hparent')
      rw [ih hway']

theorem congr {e' : Expression} (hsame : ∀ id, e'.parentOf id = e.parentOf id)
    (h : e.Ascends id way) : e'.Ascends id way := by
  induction h with
  | top hnone => exact .top ((hsame _).trans hnone)
  | step hparent _ ih => exact .step ((hsame _).trans hparent) ih

theorem exists_cons (h : e.Ascends id way) : ∃ rest, way = id :: rest := by
  cases h <;> exact ⟨_, rfl⟩

theorem self_mem (h : e.Ascends id way) : id ∈ way := by
  cases h <;> exact List.mem_cons_self

theorem exists_top (h : e.Ascends id way) :
    ∃ top, way.getLast? = some top ∧ e.parentOf top = none := by
  induction h with
  | @top id hnone => exact ⟨id, rfl, hnone⟩
  | step _ _ ih =>
    obtain ⟨top, hlast, hnone⟩ := ih
    exact ⟨top, by simp [List.getLast?_cons, hlast], hnone⟩

/-- Each node on a way up is followed by its parent, and the last one by nothing. -/
theorem getElem?_succ (h : e.Ascends id way) {steps : Nat} {above : NodeId}
    (habove : way[steps]? = some above) : way[steps + 1]? = e.parentOf above := by
  induction h generalizing steps with
  | top hnone =>
    cases steps with
    | zero =>
      obtain rfl := Option.some.inj habove
      rw [hnone]
      rfl
    | succ steps => cases habove
  | @step id parent way hparent hway ih =>
    cases steps with
    | zero =>
      obtain rfl := Option.some.inj habove
      obtain ⟨rest, rfl⟩ := hway.exists_cons
      rw [hparent]
      rfl
    | succ steps => exact ih habove

/-- The rest of the way from a node on it is the way from that node. -/
theorem of_mem (h : e.Ascends id way) {other : NodeId} (hother : other ∈ way) :
    ∃ rest, e.Ascends other rest ∧ rest <:+ way := by
  induction h with
  | top hnone =>
    obtain rfl := List.mem_singleton.mp hother
    exact ⟨_, .top hnone, List.suffix_refl _⟩
  | step hparent hway ih =>
    rcases List.mem_cons.mp hother with rfl | hother
    · exact ⟨_, .step hparent hway, List.suffix_refl _⟩
    · obtain ⟨rest, hrest, hsuffix⟩ := ih hother
      exact ⟨rest, hrest, hsuffix.trans (List.suffix_cons _ _)⟩

/-- A way that another one ends with is the whole of it. -/
theorem eq_nil_of_append {front : List NodeId} (h : e.Ascends id way)
    (hlonger : e.Ascends id (front ++ way)) : front = [] := by
  simpa using hlonger.unique h

/-- A node which came again would start the same way again, without end. -/
theorem nodup (h : e.Ascends id way) : way.Nodup := by
  induction h with
  | top _ => exact List.nodup_singleton _
  | @step id parent way hparent hway ih =>
    refine List.nodup_cons.mpr ⟨?_, ih⟩
    intro hmem
    obtain ⟨rest, hrest, front, rfl⟩ := hway.of_mem hmem
    have hnil : id :: front = [] := hrest.eq_nil_of_append (.step hparent hway)
    cases hnil

/-- The way up from a node of a subtree leaves the subtree at its topmost node. -/
theorem of_stored {parent : Option NodeId} {t : Subtree} (hstored : e.Stored parent t)
    (hway : e.Ascends t.id way) (hid : id ∈ t.ids) : ∃ front, e.Ascends id (front ++ way) := by
  induction hstored generalizing way with
  | @node parent root content children hnode hleaf hchildren ih =>
    obtain rfl | ⟨child, hchild, hid⟩ := Subtree.mem_ids_node.mp hid
    · exact ⟨[], hway⟩
    · obtain ⟨front, hfront⟩ := ih child hchild
        (.step (hchildren child hchild).parentOf_id hway) hid
      exact ⟨front ++ [child.id], by simpa using hfront⟩

end Ascends

structure Forest (e : Expression) : Prop where
  root : e.root.index < e.size
  settled : ∀ {id node}, e.node? id = some node → node.Settled
  agree : ∀ {parent child}, child ∈ e.childrenOf parent ↔ e.parentOf child = some parent
  grounded : ∀ id, ∃ way, e.Ascends id way

/-- A subtree that all nodes belong to is a forest on its own. -/
theorem Stored.forest {e : Expression} {t : Subtree} (h : e.Stored none t) (hnodup : t.ids.Nodup)
    (hroot : e.root ∈ t.ids) (hall : ∀ id node, e.node? id = some node → id ∈ t.ids) :
    e.Forest where
  root := by
    obtain ⟨above, part, hpart, hid, -⟩ := h.exists_of_mem hroot
    exact index_lt (hid ▸ hpart.node?_eq)
  settled hnode := h.settled hnodup (hall _ _ hnode) hnode
  agree := by
    intro parent child
    constructor
    · intro hchild
      obtain ⟨node, hnode, -⟩ := exists_node?_of_mem_childrenOf hchild
      exact (h.of_mem_childrenOf (hall _ _ hnode) hchild).2
    · intro hparent
      obtain ⟨node, hnode, -⟩ := exists_node?_of_parentOf hparent
      have hne : child ≠ t.id := by
        rintro rfl
        simp [h.parentOf_id] at hparent
      obtain ⟨above, -, habove, hchild⟩ := h.exists_parent (hall _ _ hnode) hne
      rwa [Option.some.inj (hparent.symm.trans habove)]
  grounded := by
    intro id
    by_cases hid : id ∈ t.ids
    · obtain ⟨front, hfront⟩ := Ascends.of_stored h (.top h.parentOf_id) hid
      exact ⟨_, hfront⟩
    · refine ⟨_, .top ?_⟩
      cases hnode : e.node? id with
      | none => rw [parentOf, hnode]; rfl
      | some node => exact absurd (hall id node hnode) hid

namespace Forest

variable {e : Expression}

theorem exists_node?_parent (hf : e.Forest) {id parent : NodeId}
    (h : e.parentOf id = some parent) : ∃ node, e.node? parent = some node := by
  obtain ⟨node, hnode, -⟩ := exists_node?_of_mem_childrenOf (hf.agree.mpr h)
  exact ⟨node, hnode⟩

theorem exists_node?_child (hf : e.Forest) {id child : NodeId} (h : child ∈ e.childrenOf id) :
    ∃ node, e.node? child = some node := by
  obtain ⟨node, hnode, -⟩ := exists_node?_of_parentOf (hf.agree.mp h)
  exact ⟨node, hnode⟩

theorem exists_node?_of_mem_way (hf : e.Forest) {id : NodeId} {way : List NodeId}
    (h : e.Ascends id way) (hid : ∃ node, e.node? id = some node) {other : NodeId}
    (hother : other ∈ way) : ∃ node, e.node? other = some node := by
  induction h with
  | top _ =>
    obtain rfl := List.mem_singleton.mp hother
    exact hid
  | step hparent _ ih =>
    rcases List.mem_cons.mp hother with rfl | hother
    · exact hid
    · exact ih (hf.exists_node?_parent hparent) hother

theorem length_way_le (hf : e.Forest) {id : NodeId} {way : List NodeId} (h : e.Ascends id way)
    (hid : ∃ node, e.node? id = some node) : way.length ≤ e.size :=
  length_le_size h.nodup fun _ hother => hf.exists_node?_of_mem_way h hid hother

/-- No handle comes twice in a stored subtree: the ways up from its places would differ
just above it. -/
theorem nodup_ids (hf : e.Forest) {parent : Option NodeId} {t : Subtree}
    (h : e.Stored parent t) : t.ids.Nodup := by
  induction h with
  | @node parent root content children hnode hleaf hchildren ih =>
    obtain ⟨way, hway⟩ := hf.grounded root
    have hbelow {child : Subtree} (hchild : child ∈ children) {id : NodeId} (hid : id ∈ child.ids) :
        ∃ front, e.Ascends id (front ++ child.id :: way) :=
      Ascends.of_stored (hchildren child hchild)
        (.step (hchildren child hchild).parentOf_id hway) hid
    rw [Subtree.ids_node, List.nodup_cons, List.nodup_flatMap]
    refine ⟨?_, ih, ?_⟩
    · intro hroot
      obtain ⟨child, hchild, hid⟩ := List.mem_flatMap.mp hroot
      obtain ⟨front, hfront⟩ := hbelow hchild hid
      have hnil : front ++ [child.id] = [] := hway.eq_nil_of_append (by simpa using hfront)
      simp at hnil
    · have hdistinct : children.Pairwise fun a b => a.id ≠ b.id := by
        have := (hf.settled hnode).nodup
        simpa [List.Nodup, List.pairwise_map] using this
      apply hdistinct.imp_of_mem
      intro a b ha hb hne id hida hidb
      apply hne
      obtain ⟨front, hfront⟩ := hbelow ha hida
      obtain ⟨front', hfront'⟩ := hbelow hb hidb
      exact (List.cons.inj (List.append_inj' (hfront.unique hfront') rfl).2).1

private theorem exists_map_id {children : List NodeId} {stored : Subtree → Prop}
    (h : ∀ id ∈ children, ∃ t, t.id = id ∧ stored t) :
    ∃ subtrees : List Subtree,
      subtrees.map Subtree.id = children ∧ ∀ t ∈ subtrees, stored t := by
  induction children with
  | nil => exact ⟨[], rfl, by simp⟩
  | cons id rest ih =>
    obtain ⟨t, rfl, ht⟩ := h id List.mem_cons_self
    obtain ⟨subtrees, rfl, hsubtrees⟩ :=
      ih fun other hother => h other (List.mem_cons_of_mem _ hother)
    exact ⟨t :: subtrees, rfl, List.forall_mem_cons.mpr ⟨ht, hsubtrees⟩⟩

/-- Beneath every node a subtree is stored. Going down makes the way up longer, and no
way is longer than the expression is large. -/
theorem exists_stored (hf : e.Forest) {id : NodeId} (hid : ∃ node, e.node? id = some node) :
    ∃ t, t.id = id ∧ e.Stored (e.parentOf id) t := by
  obtain ⟨way, hway⟩ := hf.grounded id
  generalize hroom : e.size - way.length = room
  induction room using Nat.strong_induction_on generalizing id way with
  | _ room ih =>
    obtain ⟨node, hnode⟩ := hid
    have hbelow : ∀ child ∈ node.children.toList, ∃ t, t.id = child ∧ e.Stored (some id) t := by
      intro child hchild
      have hmem : child ∈ e.childrenOf id := by rwa [childrenOf_eq hnode]
      have hparent := hf.agree.mp hmem
      have hvalid := hf.exists_node?_child hmem
      have hstep : e.Ascends child (child :: way) := .step hparent hway
      have hlength := hf.length_way_le hstep hvalid
      rw [List.length_cons] at hlength
      rw [← hparent]
      exact ih (e.size - (child :: way).length) (by rw [List.length_cons]; omega) hvalid _ hstep rfl
    obtain ⟨subtrees, hids, hstored⟩ := exists_map_id hbelow
    refine ⟨.node id node.content subtrees, rfl, .node ?_ ?_ hstored⟩
    · rw [hnode, parentOf_eq hnode, hids, ← (hf.settled hnode).pending]
    · intro hleaf
      have := (hf.settled hnode).leaf hleaf
      simpa [this] using hids

theorem tree_eq (hf : e.Forest) {parent : Option NodeId} {t : Subtree} (h : e.Stored parent t) :
    e.tree t.id = .ok t.tree :=
  h.tree_eq (hf.nodup_ids h)

/-- Every tree of a forest can be read. -/
theorem exists_tree (hf : e.Forest) {id : NodeId} (hid : ∃ node, e.node? id = some node) :
    ∃ t, t.id = id ∧ e.Stored (e.parentOf id) t ∧ t.ids.Nodup ∧ e.tree id = .ok t.tree := by
  obtain ⟨t, rfl, hstored⟩ := hf.exists_stored hid
  exact ⟨t, rfl, hstored, hf.nodup_ids hstored, hf.tree_eq hstored⟩

/-! ## Ancestors -/

theorem ancestorsWithin_eq (hf : e.Forest) {id : NodeId} {way : List NodeId}
    (h : e.Ascends id way) (hid : ∃ node, e.node? id = some node) {steps : Nat}
    (hsteps : way.length ≤ steps) : e.ancestorsWithin steps id = .ok way := by
  induction h generalizing steps with
  | @top id hnone =>
    obtain ⟨steps, rfl⟩ : ∃ n, steps = n + 1 := Nat.exists_eq_add_of_le' hsteps
    obtain ⟨node, hnode⟩ := hid
    rw [ancestorsWithin, parent_ok hnode, ← parentOf_eq hnode, hnone]
    rfl
  | @step id parent way hparent hway ih =>
    obtain ⟨steps, rfl⟩ : ∃ n, steps = n + 1 :=
      Nat.exists_eq_add_of_le' (Nat.le_trans (Nat.succ_pos _) hsteps)
    obtain ⟨node, hnode⟩ := hid
    have hrest := ih (hf.exists_node?_parent hparent) (Nat.le_of_succ_le_succ hsteps)
    rw [ancestorsWithin, parent_ok hnode, ← parentOf_eq hnode, hparent]
    show (do pure (id :: (← e.ancestorsWithin steps parent))) = _
    rw [hrest]
    rfl

/-- The ancestors of a node are its way up. -/
theorem ancestors_eq (hf : e.Forest) {id : NodeId} {way : List NodeId}
    (h : e.Ascends id way) (hid : ∃ node, e.node? id = some node) : e.ancestors id = .ok way :=
  hf.ancestorsWithin_eq h hid ((hf.length_way_le h hid).trans (Nat.le_succ _))

/-! ## Replacing a subtree -/

/-- A subtree hangs beneath a node outside of it. -/
theorem parent_not_mem (hf : e.Forest) {parent : NodeId} {t : Subtree}
    (h : e.Stored (some parent) t) : parent ∉ t.ids := by
  intro hmem
  obtain ⟨way, hway⟩ := hf.grounded parent
  obtain ⟨front, hfront⟩ := Ascends.of_stored h (.step h.parentOf_id hway) hmem
  have hnil : front ++ [t.id] = [] := hway.eq_nil_of_append (by simpa using hfront)
  simp at hnil

/-- What changes when a subtree gives way to another one with the same top, which is made
of its nodes. The nodes that are left over stand alone afterwards. -/
structure Replaced (e e' : Expression) (t t' : Subtree) (gone : List NodeId) : Prop where
  changed : e.Changed e' t.ids gone
  top : t'.id = t.id
  perm : (t'.ids ++ gone).Perm t.ids

namespace Replaced

variable {e' : Expression} {parent : Option NodeId} {t t' : Subtree} {gone : List NodeId}

theorem mem_iff (h : Replaced e e' t t' gone) {id : NodeId} :
    id ∈ t.ids ↔ id ∈ t'.ids ∨ id ∈ gone := by
  rw [← h.perm.mem_iff, List.mem_append]

theorem parentOf_gone (h : Replaced e e' t t' gone) {id : NodeId} (hid : id ∈ gone) :
    e'.parentOf id = none := by
  obtain ⟨content, hnode⟩ := h.changed.detached id hid
  exact parentOf_eq hnode

theorem childrenOf_gone (h : Replaced e e' t t' gone) {id : NodeId} (hid : id ∈ gone) :
    e'.childrenOf id = [] := by
  obtain ⟨content, hnode⟩ := h.changed.detached id hid
  exact childrenOf_eq hnode

theorem parentOf_of_mem_childrenOf (h : Replaced e e' t t' gone) (hf : e.Forest)
    (ht : e.Stored parent t) (ht' : e'.Stored parent t') {above child : NodeId}
    (hchild : child ∈ e'.childrenOf above) : e'.parentOf child = some above := by
  by_cases habove : above ∈ t.ids
  · cases h.mem_iff.mp habove with
    | inl habove => exact (ht'.of_mem_childrenOf habove hchild).2
    | inr habove => simp [h.childrenOf_gone habove] at hchild
  · rw [childrenOf_congr (h.changed.frame above habove)] at hchild
    have hparent := hf.agree.mp hchild
    by_cases hmem : child ∈ t.ids
    · by_cases htop : child = t.id
      · subst htop
        rw [← h.top, ht'.parentOf_id, ← ht.parentOf_id, hparent]
      · obtain ⟨other, hother, hparent', -⟩ := ht.exists_parent hmem htop
        obtain rfl := Option.some.inj (hparent'.symm.trans hparent)
        exact absurd hother habove
    · rw [parentOf_congr (h.changed.frame child hmem), hparent]

theorem mem_childrenOf_of_parentOf (h : Replaced e e' t t' gone) (hf : e.Forest)
    (ht : e.Stored parent t) (ht' : e'.Stored parent t') {above child : NodeId}
    (hparent : e'.parentOf child = some above) : child ∈ e'.childrenOf above := by
  by_cases hmem : child ∈ t.ids
  · cases h.mem_iff.mp hmem with
    | inl hmem =>
      by_cases htop : child = t'.id
      · subst htop
        rw [ht'.parentOf_id] at hparent
        subst hparent
        rw [childrenOf_congr (h.changed.frame above (hf.parent_not_mem ht)), h.top]
        exact hf.agree.mpr ht.parentOf_id
      · obtain ⟨other, -, hparent', hother⟩ := ht'.exists_parent hmem htop
        obtain rfl := Option.some.inj (hparent'.symm.trans hparent)
        exact hother
    | inr hmem => simp [h.parentOf_gone hmem] at hparent
  · rw [parentOf_congr (h.changed.frame child hmem)] at hparent
    have hchild := hf.agree.mpr hparent
    have habove : above ∉ t.ids := fun habove => hmem (ht.of_mem_childrenOf habove hchild).1
    rwa [childrenOf_congr (h.changed.frame above habove)]

/-- The ways up from outside of the subtree do not lead through it. -/
theorem ascends_frame (h : Replaced e e' t t' gone) (hf : e.Forest) (ht : e.Stored parent t)
    {id : NodeId} {way : List NodeId} (hway : e.Ascends id way) (hid : id ∉ t.ids) :
    e'.Ascends id way := by
  induction hway with
  | top hnone => exact .top ((parentOf_congr (h.changed.frame _ hid)).trans hnone)
  | step hparent _ ih =>
    refine .step ((parentOf_congr (h.changed.frame _ hid)).trans hparent) (ih ?_)
    intro habove
    exact hid (ht.of_mem_childrenOf habove (hf.agree.mpr hparent)).1

theorem grounded (h : Replaced e e' t t' gone) (hf : e.Forest) (ht : e.Stored parent t)
    (ht' : e'.Stored parent t') (id : NodeId) : ∃ way, e'.Ascends id way := by
  have htop : ∃ way, e'.Ascends t'.id way := by
    cases parent with
    | none => exact ⟨_, .top ht'.parentOf_id⟩
    | some above =>
      obtain ⟨way, hway⟩ := hf.grounded above
      exact ⟨_, .step ht'.parentOf_id (h.ascends_frame hf ht hway (hf.parent_not_mem ht))⟩
  by_cases hid : id ∈ t.ids
  · cases h.mem_iff.mp hid with
    | inl hid =>
      obtain ⟨way, hway⟩ := htop
      obtain ⟨front, hfront⟩ := Ascends.of_stored ht' hway hid
      exact ⟨_, hfront⟩
    | inr hid => exact ⟨_, .top (h.parentOf_gone hid)⟩
  · obtain ⟨way, hway⟩ := hf.grounded id
    exact ⟨way, h.ascends_frame hf ht hway hid⟩

/-- Replacing a subtree leaves a forest. -/
theorem forest (h : Replaced e e' t t' gone) (hf : e.Forest) (ht : e.Stored parent t)
    (ht' : e'.Stored parent t') : e'.Forest where
  root := by
    rw [h.changed.root, h.changed.size]
    exact hf.root
  settled := by
    have hnodup : t'.ids.Nodup :=
      (h.perm.nodup_iff.mpr (hf.nodup_ids ht)).sublist (List.sublist_append_left _ _)
    intro id node hnode
    by_cases hid : id ∈ t.ids
    · cases h.mem_iff.mp hid with
      | inl hid => exact ht'.settled hnodup hid hnode
      | inr hid =>
        obtain ⟨content, hgone⟩ := h.changed.detached id hid
        obtain rfl := Option.some.inj (hgone.symm.trans hnode)
        exact Node.settled_detached content
    · exact hf.settled ((h.changed.frame id hid).symm.trans hnode)
  agree := ⟨h.parentOf_of_mem_childrenOf hf ht ht', h.mem_childrenOf_of_parentOf hf ht ht'⟩
  grounded := h.grounded hf ht ht'

end Replaced
end Forest

end Expression
end ExprTree
