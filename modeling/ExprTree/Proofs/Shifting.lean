import ExprTree.Proofs.Failures

/-!
# The focus of a shift

Positions are words, but where a shift takes a node is decided as if they were integers: no
list of children is so long that a position in it could not be written down. The node changes
places with one sibling, and the path moves along with it. The way to its parent is not
affected, since it never passes through the children that are exchanged.
-/

namespace ExprTree

/-- The path has a last position and leads to a node with a parent, and the offset leads from
that position to one of the children of the parent. -/
structure Expression.ShiftsTo (e : Expression) (path : TreePath) (offset : Int64)
    (id parent : NodeId) (outer : Node) (position : UInt64) (target : Nat) : Prop where
  last_eq : path.last? = some position
  resolve_eq : e.resolve path = .ok (some id)
  parent_eq : e.parent id = .ok (some parent)
  outer_eq : e.node parent = .ok outer
  target_eq : (target : Int) = position.toNat + offset.toInt
  target_lt : target < outer.children.size

/-- What a shift leaves behind: two children of the parent have changed places, the path leads
to the node where it is now, and there is one more record. -/
structure Draft.Shifted (draft draft' : Draft) (path path' : TreePath) (id parent : NodeId)
    (outer : Node) (position : UInt64) (target : Nat) : Prop where
  path_eq : path' = ⟨path.entries.dropLast ++ [UInt64.ofNat target]⟩
  toNat_target : (UInt64.ofNat target).toNat = target
  resolve_eq : draft'.resolve path' = .ok (some id)
  position_eq : outer.children[position.toNat]? = some id
  outer_eq : draft'.node parent = .ok
    { outer with children := outer.children.swapIfInBounds position.toNat target }
  others : ∀ other, other ≠ parent → draft'.node other = draft.node other
  root_eq : draft'.root = draft.root
  size_eq : draft'.size = draft.size
  log_eq : draft'.log = draft.log.push (.shifting id position (UInt64.ofNat target))

namespace Expression

variable {e : Expression} {path : TreePath} {offset : Int64} {id parent : NodeId} {outer : Node}
  {position : UInt64} {target : Nat}

namespace ShiftsTo

variable (h : e.ShiftsTo path offset id parent outer position target) (hf : e.Forest)

include h hf

/-- Every position among the children of a node is a word. -/
theorem toNat_target : (UInt64.ofNat target).toNat = target := by
  have hlength := NodeId.length_le_of_nodup (hf.settled (node_ok_iff.mp h.outer_eq)).nodup
  rw [Array.length_toList] at hlength
  exact UInt64.toNat_ofNat_of_lt' ((h.target_lt.trans_le hlength).trans (by decide))

theorem exists_shiftable :
    ∃ sibling, e.Shiftable path offset id parent sibling position (UInt64.ofNat target) := by
  have hid := hf.index_lt_of_leads (hf.resolve_eq_some_iff.mp h.resolve_eq)
  have hparent := h.parent_eq
  rw [parent_of_lt hid, Except.ok.injEq] at hparent
  have hlt := h.target_lt
  refine ⟨outer.children[target], h.resolve_eq, hparent, h.last_eq, ?_, ?_⟩
  · rw [offsetPosition?_eq_some_iff, h.toNat_target hf, h.target_eq]
  · rw [childrenOf_eq (node_ok_iff.mp h.outer_eq), Array.getElem?_toList, h.toNat_target hf,
      Array.getElem?_eq_getElem hlt]

end ShiftsTo

theorem Shiftable.exists_shiftsTo {sibling : NodeId} {target : UInt64}
    (h : e.Shiftable path offset id parent sibling position target) :
    ∃ outer, e.ShiftsTo path offset id parent outer position target.toNat := by
  obtain ⟨node, hnode, hparent⟩ := exists_node?_of_parentOf h.parent_eq
  obtain ⟨outer, houter, -⟩ := exists_node?_of_mem_childrenOf (List.mem_of_getElem? h.sibling_eq)
  obtain ⟨hlt, -⟩ := List.getElem?_eq_some_iff.mp h.sibling_eq
  rw [childrenOf_eq houter, Array.length_toList] at hlt
  exact ⟨outer, h.last_eq, h.resolve_eq, hparent ▸ parent_ok hnode, node_ok_iff.mpr houter,
    offsetPosition?_eq_some_iff.mp h.target_eq, hlt⟩

end Expression

namespace Edit

variable {draft : Draft} {path : TreePath} {offset : Int64} {id parent : NodeId} {outer : Node}
  {position : UInt64} {target : Nat}

/-- The way to the parent is what it was, and the node is found where it went. -/
theorem resolve_arrange {front : List UInt64} {record : Record} {children : Array NodeId}
    {position : UInt64} (hf : draft.Forest) (houter : draft.node? parent = some outer)
    (hfront : draft.Leads draft.root front parent) (hchild : children[position.toNat]? = some id) :
    ((draft.note record).arrange parent children).resolve ⟨front ++ [position]⟩ =
      .ok (some id) := by
  have hself : ((draft.note record).arrange parent children).node? parent =
      some { outer with children } := by
    rw [Draft.arrange, Draft.node?_modify_self]
    exact congrArg _ houter
  have hleads : ((draft.note record).arrange parent children).Leads draft.root front parent :=
    hf.leads_congr hfront fun other hother =>
      Expression.childrenOf_congr (Draft.node?_modify_of_ne hother)
  refine (hleads.snoc ?_).descend_eq
  rwa [Expression.childrenOf_eq hself, Array.getElem?_toList]

theorem shift_of_shiftsTo (hf : draft.Forest)
    (h : draft.ShiftsTo path offset id parent outer position target) :
    ∃ path' draft', shift path offset draft = .ok path' draft' ∧
      draft.Shifted draft' path path' id parent outer position target := by
  obtain ⟨sibling, hshiftable⟩ := h.exists_shiftable hf
  obtain ⟨outer', houter', hrun⟩ := shift_of_shiftable hf hshiftable
  have houter := Expression.node_ok_iff.mp h.outer_eq
  obtain rfl := Option.some.inj (houter.symm.trans houter')
  obtain ⟨front, hentries, hfront, hposition⟩ := hshiftable.exists_front hf
  rw [Expression.childrenOf_eq houter, Array.getElem?_toList] at hposition
  have hexchanged : (outer.children.swapIfInBounds position.toNat target)[target]? = some id := by
    obtain ⟨hlt, heq⟩ := Array.getElem?_eq_some_iff.mp hposition
    rw [Array.swapIfInBounds_def, dif_pos hlt, dif_pos h.target_lt, Array.getElem?_swap,
      if_pos rfl, heq]
  have hto := h.toNat_target hf
  refine ⟨_, _, hrun, rfl, hto, ?_, hposition, ?_, ?_, rfl, Draft.size_modify, rfl⟩
  · rw [hentries, List.dropLast_concat]
    exact resolve_arrange hf houter hfront (by rwa [hto])
  · rw [Expression.node_ok_iff, Draft.arrange, Draft.node?_modify_self, hto]
    exact congrArg _ houter
  · intro other hother
    exact Expression.node_congr Draft.size_modify (Draft.node?_modify_of_ne hother)

theorem shift_of_not_shiftsTo (hf : draft.Forest)
    (h : ∀ id parent outer position target,
      ¬ draft.ShiftsTo path offset id parent outer position target) :
    shift path offset draft = .error .notAChild draft ∧ pathAfter path offset draft = path := by
  have hnone : ∀ id parent sibling position target,
      ¬ draft.Shiftable path offset id parent sibling position target := by
    intro id parent sibling position target hshiftable
    obtain ⟨outer, hshifts⟩ := hshiftable.exists_shiftsTo
    exact h id parent outer position target.toNat hshifts
  refine ⟨shift_of_not_shiftable hf hnone, ?_⟩
  rw [pathAfter, shiftFocused_of_not_shiftable hf hnone, Run.final_error]

end Edit

namespace Reachable

/-- A shift succeeds exactly when the offset leads from the last position of the path, over the
integers, to a position among the siblings of the node there. It then exchanges the two
children and nothing else, leaves one record, and gives the path on which the node is now. If
it fails, nothing has changed. -/
theorem shift_keeps_focus {e : Expression} (h : Reachable e) (hroom : e.size ≤ 2 ^ 32)
    (path : TreePath) (offset : Int64) (log : Log) :
    ((∃ path' draft, Edit.shift path offset ⟨e, log⟩ = .ok path' draft) ↔
      ∃ id parent outer position target, e.ShiftsTo path offset id parent outer position target) ∧
    (∀ path' draft id parent outer position target,
      Edit.shift path offset ⟨e, log⟩ = .ok path' draft →
      e.ShiftsTo path offset id parent outer position target →
      (⟨e, log⟩ : Draft).Shifted draft path path' id parent outer position target) ∧
    ∀ error draft, Edit.shift path offset ⟨e, log⟩ = .error error draft →
      error = .notAChild ∧ draft = ⟨e, log⟩ ∧ Edit.pathAfter path offset ⟨e, log⟩ = path := by
  have hf : (Draft.mk e log).Forest := h.forest hroom
  have hfails : (∀ id parent outer position target,
      ¬ e.ShiftsTo path offset id parent outer position target) →
      Edit.shift path offset ⟨e, log⟩ = .error .notAChild ⟨e, log⟩ ∧
        Edit.pathAfter path offset ⟨e, log⟩ = path := Edit.shift_of_not_shiftsTo hf
  refine ⟨⟨?_, ?_⟩, ?_, ?_⟩
  · rintro ⟨path', draft, hrun⟩
    by_contra hnone
    simp only [not_exists] at hnone
    rw [(hfails hnone).1] at hrun
    cases hrun
  · rintro ⟨id, parent, outer, position, target, hshifts⟩
    obtain ⟨path', draft, hrun, -⟩ := Edit.shift_of_shiftsTo hf hshifts
    exact ⟨path', draft, hrun⟩
  · intro path' draft id parent outer position target hrun hshifts
    obtain ⟨path'', draft', hrun', hshifted⟩ := Edit.shift_of_shiftsTo hf hshifts
    cases hrun.symm.trans hrun'
    exact hshifted
  · intro error draft hrun
    have hnone : ∀ id parent outer position target,
        ¬ e.ShiftsTo path offset id parent outer position target := by
      intro id parent outer position target hshifts
      obtain ⟨path', draft', hrun', -⟩ := Edit.shift_of_shiftsTo hf hshifts
      cases hrun.symm.trans hrun'
    obtain ⟨hnotAChild, hpath⟩ := hfails hnone
    cases hrun.symm.trans hnotAChild
    exact ⟨rfl, rfl, hpath⟩

/-- The first of two summands moves behind the other one. -/
theorem shift_keeps_focus_of_sum :
    ∃ e path' draft, Reachable e ∧ e.inline e.root = .ok "x+y" ∧
      Edit.shift ⟨[0]⟩ 1 ⟨e, #[]⟩ = .ok path' draft ∧ path' = ⟨[1]⟩ ∧
      draft.resolve path' = .ok (some ⟨1⟩) ∧ draft.children ⟨0⟩ = .ok #[⟨2⟩, ⟨1⟩] ∧
      draft.log = #[.shifting ⟨1⟩ 0 1] := by
  have hsum := Reachable.ofContent (.compound (.operation .add))
  have hx := (hsum.edit (.insert (.literal ⟨"x", by decide⟩)) #[]).edit (.addChild ⟨0⟩ ⟨1⟩) #[]
  have hy := (hx.edit (.insert (.literal ⟨"y", by decide⟩)) #[]).edit (.addChild ⟨0⟩ ⟨2⟩) #[]
  obtain ⟨hsucceeds, hshifted, -⟩ := shift_keeps_focus hy (by decide) ⟨[0]⟩ 1 #[]
  have hshifts {e : Expression} (he : e.node ⟨0⟩ =
      .ok ⟨.compound (.operation .add), none, #[⟨1⟩, ⟨2⟩], Pending.empty⟩)
      (hresolve : e.resolve ⟨[0]⟩ = .ok (some ⟨1⟩)) (hparent : e.parent ⟨1⟩ = .ok (some ⟨0⟩)) :
      e.ShiftsTo ⟨[0]⟩ 1 ⟨1⟩ ⟨0⟩ _ 0 1 :=
    ⟨rfl, hresolve, hparent, he, by decide, by decide⟩
  obtain ⟨path', draft, hrun⟩ := hsucceeds.mpr ⟨_, _, _, _, _, hshifts rfl rfl rfl⟩
  have hdone := hshifted _ _ _ _ _ _ _ hrun (hshifts rfl rfl rfl)
  refine ⟨_, path', draft, hy, rfl, hrun, hdone.path_eq, hdone.resolve_eq, ?_, hdone.log_eq⟩
  rw [Expression.children, hdone.outer_eq]
  rfl

end Reachable
end ExprTree
