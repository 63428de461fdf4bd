import ExprTree.Proofs.Edit.Reorder
import ExprTree.Proofs.Expression.Paths

/-!
# Shifts

A shift looks everything up before it writes: the node at the path, its parent, its new
position and the sibling there. If one of them is missing, nothing happens, neither to the
expression nor to the path. Otherwise the two siblings are children of the parent, so that
exchanging them cannot fail, and neither can the change of the path.
-/

namespace ExprTree

/-- What a shift finds when it can be made: the node at the path, its parent, and the sibling
at the position where the node is to go. -/
structure Expression.Shiftable (e : Expression) (path : TreePath) (offset : Int64)
    (id parent sibling : NodeId) (position target : UInt64) : Prop where
  resolve_eq : e.resolve path = .ok (some id)
  parent_eq : e.parentOf id = some parent
  last_eq : path.last? = some position
  target_eq : offsetPosition? position offset = some target
  sibling_eq : (e.childrenOf parent)[target.toNat]? = some sibling

/-- The path comes to the parent one step before its end, and finds the node at its last
position there. -/
theorem Expression.Shiftable.exists_front {e : Expression} {path : TreePath} {offset : Int64}
    {id parent sibling : NodeId} {position target : UInt64}
    (h : e.Shiftable path offset id parent sibling position target) (hf : e.Forest) :
    ∃ front, path.entries = front ++ [position] ∧ e.Leads e.root front parent ∧
      (e.childrenOf parent)[position.toNat]? = some id := by
  obtain ⟨front, hentries⟩ := List.getLast?_eq_some_iff.mp h.last_eq
  have hleads := hf.resolve_eq_some_iff.mp h.resolve_eq
  rw [hentries] at hleads
  obtain ⟨outer, hfront, hlast⟩ := hleads.exists_parent
  obtain rfl : outer = parent :=
    Option.some.inj ((hf.agree.mp (List.mem_of_getElem? hlast)).symm.trans h.parent_eq)
  exact ⟨front, hentries, hfront, hlast⟩

/-- The draft with one more record. -/
def Draft.note (draft : Draft) (record : Record) : Draft :=
  { draft with log := draft.log.push record }

namespace Edit

open Run

variable {α β : Type} {draft : Draft} {path : TreePath} {offset : Int64}

theorem bind_found_some {answer : Option α} {a : α} (h : answer = some a)
    (next : α → Edit EditError β) : (found answer >>= next) draft = next a draft := by
  subst h
  exact bind_of_ok rfl

theorem bind_found_none {answer : Option α} (h : answer = none) (next : α → Edit EditError β) :
    (found answer >>= next) draft = .error .notAChild draft := by
  subst h
  exact bind_of_error rfl

/-- Exchanging two children that are there. -/
theorem exists_swapChildren {parent first second : NodeId} (hfirst : first ∈ draft.childrenOf parent)
    (hsecond : second ∈ draft.childrenOf parent) :
    ∃ children, swapChildren parent first second draft = .ok () (draft.arrange parent children) := by
  obtain ⟨node, hnode, hfirst⟩ := Expression.exists_node?_of_mem_childrenOf hfirst
  rw [Expression.childrenOf_eq hnode, Array.mem_toList_iff] at hsecond
  obtain ⟨i, hi⟩ := Option.isSome_iff_exists.mp
    ((Array.isSome_finIdxOf?).trans (Array.contains_iff_mem.mpr hfirst))
  obtain ⟨j, hj⟩ := Option.isSome_iff_exists.mp
    ((Array.isSome_finIdxOf?).trans (Array.contains_iff_mem.mpr hsecond))
  rw [swapChildren_of_node hnode, hi, hj]
  exact ⟨_, rfl⟩

/-- The node is exchanged with the sibling at the position where it is to go. -/
theorem exchangeAt_of_shiftable (hf : draft.Forest) {id parent sibling : NodeId}
    {position target : UInt64} (h : draft.Shiftable path offset id parent sibling position target) :
    ∃ outer, draft.node? parent = some outer ∧
      exchangeAt path offset draft = .ok () ((draft.note (.shifting id position target)).arrange
        parent (outer.children.swapIfInBounds position.toNat target.toNat)) := by
  obtain ⟨node, hnode, hparent⟩ := Expression.exists_node?_of_parentOf h.parent_eq
  obtain ⟨outer, houter, -⟩ :=
    Expression.exists_node?_of_mem_childrenOf (List.mem_of_getElem? h.sibling_eq)
  obtain ⟨front, -, -, hposition⟩ := h.exists_front hf
  have hsibling := h.sibling_eq
  rw [Expression.childrenOf_eq houter, Array.getElem?_toList] at hsibling hposition
  have houter' : (draft.note (.shifting id position target)).node? parent = some outer := houter
  have hswap := swapChildren_of_getElem? houter' (hf.settled houter) hposition hsibling
  have hemit : (emit (.shifting id position target) : Edit EditError Unit) draft
      = .ok () (draft.note (.shifting id position target)) := rfl
  refine ⟨outer, houter, ?_⟩
  unfold exchangeAt
  rw [bind_of_ok (lift_of_ok (read_of_ok h.resolve_eq)), bind_found_some rfl,
    bind_of_ok (lift_of_ok (read_of_ok (Expression.parent_ok hnode))), bind_found_some hparent,
    bind_found_some h.last_eq, bind_found_some h.target_eq,
    bind_of_ok (lift_of_ok (read_of_ok (Expression.children_ok houter))),
    bind_found_some hsibling, bind_of_ok hemit, hswap]

theorem exchangeAt_of_not_shiftable (hf : draft.Forest)
    (h : ∀ id parent sibling position target,
      ¬ draft.Shiftable path offset id parent sibling position target) :
    exchangeAt path offset draft = .error .notAChild draft := by
  unfold exchangeAt
  obtain ⟨id, hleads⟩ | hnowhere := hf.leads_or_resolve_eq_none path
  · have hresolve := hf.resolve_eq_some_iff.mpr hleads
    rw [bind_of_ok (lift_of_ok (read_of_ok hresolve)), bind_found_some rfl,
      bind_of_ok (lift_of_ok (read_of_ok (Expression.parent_of_lt (hf.index_lt_of_leads hleads))))]
    cases hparent : draft.parentOf id with
    | none => exact bind_found_none rfl _
    | some parent =>
      rw [bind_found_some rfl]
      cases hlast : path.last? with
      | none => exact bind_found_none rfl _
      | some position =>
        rw [bind_found_some rfl]
        cases htarget : offsetPosition? position offset with
        | none => exact bind_found_none rfl _
        | some target =>
          obtain ⟨outer, houter⟩ := hf.exists_node?_parent hparent
          rw [bind_found_some rfl,
            bind_of_ok (lift_of_ok (read_of_ok (Expression.children_ok houter)))]
          cases hsibling : outer.children[target.toNat]? with
          | none => exact bind_found_none rfl _
          | some sibling =>
            rw [← Array.getElem?_toList, ← Expression.childrenOf_eq houter] at hsibling
            exact absurd ⟨hresolve, hparent, hlast, htarget, hsibling⟩
              (h id parent sibling position target)
  · rw [bind_of_ok (lift_of_ok (read_of_ok hnowhere)), bind_found_none rfl]

/-- The exchange was made at the positions that the path goes by, so that it can follow. -/
theorem shift_of_shiftable (hf : draft.Forest) {id parent sibling : NodeId}
    {position target : UInt64} (h : draft.Shiftable path offset id parent sibling position target) :
    ∃ outer, draft.node? parent = some outer ∧
      shift path offset draft = .ok ⟨path.entries.dropLast ++ [target]⟩
        ((draft.note (.shifting id position target)).arrange parent
          (outer.children.swapIfInBounds position.toNat target.toNat)) := by
  obtain ⟨outer, houter, hrun⟩ := exchangeAt_of_shiftable hf h
  have hpath : path.offset offset = .ok ⟨path.entries.dropLast ++ [target]⟩ := by
    simp only [TreePath.offset, h.last_eq, h.target_eq]
  refine ⟨outer, houter, ?_⟩
  rw [shift, shiftFocused_eq, hrun]
  simp only [hpath]

/-- The path of a shift that cannot be made stays where it is. -/
theorem shiftFocused_of_not_shiftable (hf : draft.Forest)
    (h : ∀ id parent sibling position target,
      ¬ draft.Shiftable path offset id parent sibling position target) :
    shiftFocused offset ⟨draft, path⟩ = .error .notAChild ⟨draft, path⟩ := by
  rw [shiftFocused_eq, exchangeAt_of_not_shiftable hf h]

theorem shift_of_not_shiftable (hf : draft.Forest)
    (h : ∀ id parent sibling position target,
      ¬ draft.Shiftable path offset id parent sibling position target) :
    shift path offset draft = .error .notAChild draft := by
  rw [shift, shiftFocused_of_not_shiftable hf h]

end Edit
end ExprTree
