import ExprTree.Proofs.Failures
import ExprTree.Proofs.Meaning
import ExprTree.Proofs.Rearranging

/-!
# The root

The root starts out without a parent, and a single kind of call gives it one: attaching
the root itself to another node, which is not refused. As long as no such call is made, the
root stays a root, and flattening takes nothing away from it. Afterwards it is a node
like others, which flattening may splice away.
-/

namespace ExprTree

open Run

namespace Operation

/-- Whether the call makes the root a child of another node. -/
def AttachesRoot (operation : Operation) (draft : Draft) : Prop :=
  ∃ parent, operation = .addChild parent draft.root ∧ operation.failure? draft = none

end Operation

/-! ## Nodes without a parent -/

namespace Edit

/-- Every node has the parent it had after an exchange of children. -/
theorem parentOf_swapChildren (parent first second id : NodeId) (above : Option NodeId) :
    Preserves (fun e => e.parentOf id = above) (swapChildren parent first second) :=
  .swapChildren (fun _ _ habove => (Draft.parentOf_arrange id).trans habove) parent first second

/-- Flattening never gives a parent to a node that has none. -/
theorem parentOf_flattenBeneath {draft : Draft} (hf : draft.Forest) {top : NodeId}
    (htop : draft.parentOf top = none) (id : NodeId) :
    (final (flattenBeneath id draft)).parentOf top = none := by
  obtain ⟨-, hsame⟩ | ⟨parent, t, rfl, ht, hflat, -⟩ := final_flattenBeneath hf id
  · rwa [hsame]
  · by_cases hmem : top ∈ t.ids
    · obtain rfl := Flattened.eq_id_of_top ht htop hmem
      have hparent := hflat.stored.parentOf_id
      rwa [Subtree.id_flat, ← ht.parentOf_id, htop] at hparent
    · rw [Expression.parentOf_congr (hflat.changed.frame top hmem), htop]

end Edit

namespace Operation

variable {draft : Draft}

theorem parentOf_root_addChild_iff (hf : draft.Forest) (hroot : draft.parentOf draft.root = none)
    (parent child : NodeId) :
    ((addChild parent child).after draft).parentOf draft.root = none ↔
      ¬ (addChild parent child).AttachesRoot draft := by
  by_cases h : draft.Attachable parent child
  · obtain ⟨hrun, -⟩ := Edit.addChild_of_attachable hf h
    have hsuccess : (addChild parent child).failure? draft = none := by
      rw [failure?, hrun]
      rfl
    have hparentOf := Draft.parentOf_moved hf (hf.ne_of_attachable h)
      (Expression.node?_isSome_iff.mpr h.child) draft.root
    rw [after, hrun, final_ok, hparentOf]
    by_cases hchild : draft.root = child
    · subst hchild
      rw [if_pos rfl]
      exact iff_of_false (Option.some_ne_none _) fun hnot => hnot ⟨parent, rfl, hsuccess⟩
    · rw [if_neg hchild]
      refine iff_of_true hroot ?_
      rintro ⟨parent', heq, -⟩
      cases heq
      exact hchild rfl
  · obtain ⟨fault, herror⟩ := Edit.addChild_of_not_attachable hf h
    rw [after, herror, final_error]
    refine iff_of_true hroot ?_
    rintro ⟨parent', -, hsuccess⟩
    rw [failure?, herror] at hsuccess
    cases hsuccess

/-- Only attaching can give a parent to a node that has none. -/
theorem parentOf_after_of_top (operation : Operation) (hattaches : operation.attaches = false)
    (hf : draft.Forest) {top : NodeId} (htop : draft.parentOf top = none) :
    (operation.after draft).parentOf top = none := by
  cases operation with
  | addChild parent child => cases hattaches
  | insert content => exact (Draft.parentOf_add top).trans htop
  | swapChildren parent first second =>
    exact Edit.parentOf_swapChildren parent first second top none draft htop
  | flatten => exact Edit.parentOf_flattenBeneath hf htop draft.root
  | flattenBeneath id => exact Edit.parentOf_flattenBeneath hf htop id
  | shift path offset =>
    exact Edit.Preserves.shift
      (fun parent first second => Edit.parentOf_swapChildren parent first second top none) path
      offset draft htop

/-- The root gets a parent exactly by being attached to one. -/
theorem parentOf_root_iff (operation : Operation) (hf : draft.Forest)
    (hroot : draft.parentOf draft.root = none) :
    (operation.after draft).parentOf draft.root = none ↔ ¬ operation.AttachesRoot draft := by
  cases hattaches : operation.attaches with
  | false =>
    refine iff_of_true (operation.parentOf_after_of_top hattaches hf hroot) ?_
    rintro ⟨parent, rfl, -⟩
    cases hattaches
  | true =>
    cases operation with
    | addChild parent child => exact parentOf_root_addChild_iff hf hroot parent child
    | _ => cases hattaches

end Operation

/-! ## What flattening leaves of the root -/

/-- What `draft` has in the place of the root of `e`, after flattening beneath `id`. -/
structure Expression.RootKept (e : Expression) (log : Log) (id : NodeId) (draft : Draft) :
    Prop where
  root : draft.root = e.root
  parent : draft.parent draft.root = .ok none
  /-- Only flattening beneath the root itself changes its list of children. -/
  node : id ≠ e.root → draft.node draft.root = e.node e.root
  literals : ∃ before after, e.literals e.root = .ok before ∧
    draft.literals draft.root = .ok after ∧ after.Perm before
  /-- The list is emptied exactly if the root merges all of its children and none of them has
  anything left beneath it. -/
  children : id = e.root → (draft.children draft.root = .ok #[] ↔
    ∃ tree, e.tree e.root = .ok tree ∧ ∀ child ∈ tree.children,
      tree.content.absorbs child.content = true ∧ child.flat.children = [])
  log : ∀ count above, .splicing count e.root above ∈ draft.log →
    .splicing count e.root above ∈ log

namespace Edit

open Expression

variable {draft : Draft}

theorem rootKept_of_flattened {draft' : Draft} {parent : Option NodeId} {s t : Subtree}
    (hf : draft.Forest) (hs : draft.Stored none s) (hroot : s.id = draft.root)
    (ht : draft.Stored parent t) (hflat : Flattened draft draft' parent t)
    (hf' : draft'.Forest) : draft.RootKept draft.log t.id draft' := by
  have hs' := hflat.stored_flatAt_of_top ht hs
  have hroot' : draft'.root = (s.flatAt t.id).id := by
    rw [hflat.changed.root, ← hroot, Subtree.id_flatAt]
  have hliterals := literals_ok (hf.tree_eq hs)
  have hperm : (s.flatAt t.id).tree.literals.Perm s.tree.literals :=
    Tree.literals_perm_of_value (s.value_flatAt .literals t.id)
  -- The flattened subtree has the root on top or not at all.
  have houtside : draft.root ∈ t.ids → draft.root = t.id :=
    Flattened.eq_id_of_top ht (hroot ▸ hs.parentOf_id)
  refine ⟨hflat.changed.root, ?_, ?_, ?_, ?_, ?_⟩
  · rw [hroot', parent_ok hs'.node?_eq]
  · intro hne
    have hout : draft.root ∉ t.ids := fun hmem => hne (houtside hmem).symm
    rw [hflat.changed.root, ← hroot, node_ok_iff.mpr hs.node?_eq, node_ok_iff,
      hflat.changed.frame _ (hroot ▸ hout), hs.node?_eq]
  · exact ⟨_, _, hroot ▸ hliterals, hroot' ▸ literals_ok (hf'.tree_eq hs'), hperm⟩
  · intro htop
    have hsame : s.flatAt t.id = s.flat := by
      rw [htop, ← hroot, Subtree.flatAt_self]
    have htree := hf.tree_eq hs
    rw [hroot] at htree
    rw [hroot', hs'.children_eq_empty_iff, hsame, Subtree.tree_flat, Tree.children_flat_eq_nil_iff]
    constructor
    · exact fun h => ⟨_, htree, h⟩
    · rintro ⟨tree, htree', h⟩
      obtain rfl := Except.ok.inj (htree.symm.trans htree')
      exact h
  · intro count above hmem
    rw [hflat.log, ← Array.mem_toList_iff, Array.toList_appendList, List.mem_append,
      Array.mem_toList_iff] at hmem
    refine hmem.resolve_right fun hmem => ?_
    have hremoved := Subtree.mem_removed_of_mem_splicings hmem
    rw [houtside (Subtree.removed_subset t hremoved)] at hremoved
    exact Subtree.id_not_mem_removed (hf.nodup_ids ht) hremoved

/-- Flattening beneath any node keeps a root without a parent. -/
theorem rootKept_flattenBeneath (hf : draft.Forest) (hroot : draft.parentOf draft.root = none)
    (id : NodeId) : draft.RootKept draft.log id (final (flattenBeneath id draft)) := by
  obtain ⟨s, hid, hs⟩ := hf.exists_stored (node?_isSome_iff.mpr hf.root)
  rw [hroot] at hs
  obtain ⟨hid', hsame⟩ | ⟨parent, t, rfl, ht, hflat, hf'⟩ := final_flattenBeneath hf id
  · rw [hsame]
    have hliterals := literals_ok (hf.tree_eq hs)
    rw [hid] at hliterals
    refine ⟨rfl, (parent_of_lt hf.root).trans (congrArg _ hroot), fun _ => rfl,
      ⟨_, _, hliterals, hliterals, .refl _⟩, ?_, fun _ _ hmem => hmem⟩
    rintro rfl
    exact absurd hf.root (Nat.not_lt_of_le hid')
  · exact rootKept_of_flattened hf hs hid ht hflat hf'

end Edit

/-! ## Runs that never attach the root -/

/-- The expressions that a run makes without ever attaching the root to another node. -/
inductive Rooted : Expression → Prop where
  | ofContent (content : Content) : Rooted (.ofContent content)
  | parse {text : String} {log log' : Log} {e : Expression} :
      Expression.parse text log = .ok e log' → Rooted e
  | copy {e copied : Expression} {id : NodeId} :
      Reachable e → e.copy id = .ok copied → Rooted copied
  | edit {e : Expression} (operation : Operation) (log : Log) :
      Rooted e → ¬ operation.AttachesRoot ⟨e, log⟩ →
      Rooted (operation.after ⟨e, log⟩).toExpression

namespace Rooted

variable {e : Expression}

theorem reachable (h : Rooted e) : Reachable e := by
  induction h with
  | ofContent content => exact .ofContent content
  | parse hparse => exact .parse hparse
  | copy h hcopy => exact .copy h hcopy
  | edit operation log _ _ ih => exact ih.edit operation log

theorem parentOf_root (h : Rooted e) (hroom : e.size ≤ 2 ^ 32) : e.parentOf e.root = none := by
  induction h with
  | ofContent content => rfl
  | parse hparse =>
    obtain ⟨tree, -, -, hdense⟩ := Expression.of_parse_eq_ok hparse hroom
    exact hdense.parentOf_root
  | copy _ hcopy =>
    obtain ⟨tree, -, hof⟩ := Expression.copy_eq_ok_iff.mp hcopy
    exact (Expression.dense_of_ofTree hof hroom).parentOf_root
  | @edit e operation log h hnot ih =>
    have hroom' : e.size ≤ 2 ^ 32 := (operation.size_le ⟨e, log⟩).trans hroom
    rw [operation.root_after]
    exact (operation.parentOf_root_iff (h.reachable.forest hroom') (ih hroom')).mpr hnot

/-- As long as no call attaches the root, it has no parent, and no flattening splices it away
or takes anything from it. The next call gives it a parent exactly if it attaches the root. -/
theorem root_stays (h : Rooted e) (hroom : e.size ≤ 2 ^ 32) (log : Log) :
    e.parent e.root = .ok none ∧
    (∀ id, e.RootKept log id ((Operation.flattenBeneath id).after ⟨e, log⟩)) ∧
    ∀ operation : Operation, operation.AttachesRoot ⟨e, log⟩ ↔
      (operation.after ⟨e, log⟩).parent e.root ≠ .ok none := by
  have hf : (Draft.mk e log).Forest := h.reachable.forest hroom
  have hroot := h.parentOf_root hroom
  refine ⟨?_, fun id => Edit.rootKept_flattenBeneath hf hroot id, fun operation => ?_⟩
  · rw [Expression.parent_of_lt hf.root, hroot]
  · have hvalid : e.root.index < (operation.after ⟨e, log⟩).size :=
      Nat.lt_of_lt_of_le hf.root (operation.size_le ⟨e, log⟩)
    rw [Expression.parent_of_lt hvalid, Ne, Except.ok.injEq,
      operation.parentOf_root_iff hf hroot, not_not]

/-- A sum around an empty sum and a literal. -/
theorem root_stays_of_sum :
    ∃ e, Rooted e ∧ e.size = 3 ∧ e.parent e.root = .ok none ∧
      e.RootKept #[] ⟨0⟩ ((Operation.flattenBeneath ⟨0⟩).after ⟨e, #[]⟩) ∧
      (Operation.addChild ⟨1⟩ ⟨0⟩).after ⟨e, #[]⟩ = ⟨e, #[]⟩ := by
  have hsum := Rooted.ofContent (.compound (.operation .add))
  have hinner := (hsum.edit (.insert (.compound (.operation .add))) #[] (by rintro ⟨_, ⟨⟩, -⟩)).edit
    (.addChild ⟨0⟩ ⟨1⟩) #[] (by rintro ⟨_, ⟨⟩, -⟩)
  have hx := (hinner.edit (.insert (.literal ⟨"x", by decide⟩)) #[] (by rintro ⟨_, ⟨⟩, -⟩)).edit
    (.addChild ⟨0⟩ ⟨2⟩) #[] (by rintro ⟨_, ⟨⟩, -⟩)
  obtain ⟨hparent, hkept, -⟩ := root_stays hx (by decide) #[]
  exact ⟨_, hx, rfl, hparent, hkept ⟨0⟩, rfl⟩

end Rooted

/-- The root of `+` around `x`, attached to another `+`. Flattening beneath that one splices the
root away, which loses its child. -/
theorem Reachable.exists_root_spliced :
    ∃ e draft, Reachable e ∧ e.size = 3 ∧ e.root = ⟨0⟩ ∧ e.parent e.root = .ok (some ⟨2⟩) ∧
      e.inline e.root = .ok "x" ∧ Edit.flattenBeneath ⟨2⟩ ⟨e, #[]⟩ = .ok () draft ∧
      draft.root = ⟨0⟩ ∧ draft.children draft.root = .ok #[] ∧
      draft.children ⟨2⟩ = .ok #[⟨1⟩] ∧ draft.inline draft.root = .ok "" := by
  have hsum := Reachable.ofContent (.compound (.operation .add))
  have hx := (hsum.edit (.insert (.literal ⟨"x", by decide⟩)) #[]).edit (.addChild ⟨0⟩ ⟨1⟩) #[]
  have hattached :=
    (hx.edit (.insert (.compound (.operation .add))) #[]).edit (.addChild ⟨2⟩ ⟨0⟩) #[]
  exact ⟨_, _, hattached, rfl, rfl, rfl, rfl, rfl, rfl, rfl, rfl, rfl⟩

end ExprTree
