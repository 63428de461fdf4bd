import ExprTree.Proofs.Expression.Nested
import ExprTree.Proofs.Shifting
import Mathlib.Logic.Equiv.Basic

/-!
# Exchanging children

Two nodes change places exactly when they are children of the same node. Every other child
keeps its position, and what is shown of a node from which the exchange cannot be seen stays
the same. An exchange is its own inverse, whichever of the two nodes is named first, and a
shift is taken back by the opposite offset.
-/

namespace ExprTree

open Run

/-- Two children of `parent` have changed places, and nothing else is different. -/
structure Draft.Exchanged (draft draft' : Draft) (parent first second : NodeId) : Prop where
  outer_eq : ∃ outer, draft.node parent = .ok outer ∧ first ∈ outer.children ∧
    second ∈ outer.children ∧ draft'.node parent = .ok
      { outer with children := outer.children.map (Equiv.swap first second) }
  others : ∀ other, other ≠ parent → draft'.node other = draft.node other
  root_eq : draft'.root = draft.root
  size_eq : draft'.size = draft.size
  log_eq : draft'.log = draft.log
  self_eq : first = second → draft' = draft

/-! ## Exchanged lists -/

namespace Node.Settled

variable {node : Node} {first second child : NodeId} {i j : Nat}

theorem position_unique (h : node.Settled) (hi : node.children[i]? = some child)
    (hj : node.children[j]? = some child) : i = j := by
  obtain ⟨_, hi⟩ := h.finIdxOf?_eq hi
  obtain ⟨_, hj⟩ := h.finIdxOf?_eq hj
  simpa using hi.symm.trans hj

/-- Exchanging two positions renames the children there, since no child comes twice. -/
theorem swapIfInBounds_eq_map (h : node.Settled) (hfirst : node.children[i]? = some first)
    (hsecond : node.children[j]? = some second) :
    node.children.swapIfInBounds i j = node.children.map (Equiv.swap first second) := by
  obtain ⟨hi, rfl⟩ := Array.getElem?_eq_some_iff.mp hfirst
  obtain ⟨hj, rfl⟩ := Array.getElem?_eq_some_iff.mp hsecond
  apply Array.ext_getElem?
  intro k
  rw [Array.swapIfInBounds_def, dif_pos hi, dif_pos hj, Array.getElem?_swap, Array.getElem?_map]
  by_cases hkj : j = k
  · subst hkj
    rw [if_pos rfl, hsecond, Option.map_some, Equiv.swap_apply_right]
  · by_cases hki : i = k
    · subst hki
      rw [if_neg hkj, if_pos rfl, hfirst, Option.map_some, Equiv.swap_apply_left]
    · rw [if_neg hkj, if_neg hki]
      cases hk : node.children[k]? with
      | none => rfl
      | some child =>
        rw [Option.map_some, Equiv.swap_apply_of_ne_of_ne]
        · rintro rfl
          exact hki (h.position_unique hfirst hk)
        · rintro rfl
          exact hkj (h.position_unique hsecond hk)

end Node.Settled

theorem map_swap_map_swap (children : Array NodeId) (first second : NodeId) :
    (children.map (Equiv.swap first second)).map (Equiv.swap first second) = children := by
  rw [Array.map_map]
  exact (Array.map_congr_left fun child _ => Equiv.swap_apply_self first second child).trans
    (Array.map_id _)

namespace Draft

variable {draft : Draft} {parent : NodeId} {node : Node} {children : Array NodeId}

/-- Of two arrangements of the same children the later one counts. -/
theorem arrange_arrange (children' : Array NodeId) :
    (draft.arrange parent children).arrange parent children' = draft.arrange parent children' := by
  have hnodes : ((draft.arrange parent children).arrange parent children').nodes =
      (draft.arrange parent children').nodes := by
    apply Array.ext_getElem?
    intro k
    simp only [arrange, modify, Array.getElem?_modify]
    split <;> simp [Function.comp_def]
  exact congrArg (fun nodes => { draft with nodes }) hnodes

theorem arrange_self (hnode : draft.node? parent = some node) :
    draft.arrange parent node.children = draft := by
  have hnodes : (draft.arrange parent node.children).nodes = draft.nodes := by
    apply Array.ext_getElem?
    intro k
    simp only [arrange, modify, Array.getElem?_modify]
    split
    next hk =>
      subst hk
      rw [Expression.node?] at hnode
      rw [hnode]
      rfl
    next => rfl
  exact congrArg (fun nodes => { draft with nodes }) hnodes

theorem node?_arrange (children : Array NodeId) (hnode : draft.node? parent = some node) :
    (draft.arrange parent children).node? parent = some { node with children } := by
  rw [arrange, node?_modify_self, hnode]
  rfl

end Draft

/-! ## Exchanges -/

namespace Edit

variable {draft draft' : Draft} {parent first second : NodeId} {node : Node}

theorem swapChildren_of_mem (hf : draft.Forest) (hnode : draft.node? parent = some node)
    (hfirst : first ∈ node.children) (hsecond : second ∈ node.children) :
    swapChildren parent first second draft =
      .ok () (draft.arrange parent (node.children.map (Equiv.swap first second))) := by
  obtain ⟨i, hi⟩ := Array.mem_iff_getElem?.mp hfirst
  obtain ⟨j, hj⟩ := Array.mem_iff_getElem?.mp hsecond
  have hsettled := hf.settled hnode
  rw [swapChildren_of_getElem? hnode hsettled hi hj, hsettled.swapIfInBounds_eq_map hi hj]

/-- Only children of the node are exchanged. -/
theorem exists_of_swapChildren (hf : draft.Forest)
    (hrun : swapChildren parent first second draft = .ok () draft') :
    ∃ node, draft.node? parent = some node ∧ first ∈ node.children ∧ second ∈ node.children ∧
      draft' = draft.arrange parent (node.children.map (Equiv.swap first second)) := by
  by_cases hparent : parent.index < draft.size
  · by_cases hmembers : first ∈ draft.childrenOf parent ∧ second ∈ draft.childrenOf parent
    · obtain ⟨node, hnode⟩ := Expression.node?_isSome_iff.mpr hparent
      rw [Expression.childrenOf_eq hnode, Array.mem_toList_iff, Array.mem_toList_iff] at hmembers
      obtain ⟨hfirst, hsecond⟩ := hmembers
      rw [swapChildren_of_mem hf hnode hfirst hsecond] at hrun
      cases hrun
      exact ⟨node, hnode, hfirst, hsecond, rfl⟩
    · rw [swapChildren_of_not_mem hparent (not_and_or.mp hmembers)] at hrun
      cases hrun
  · rw [swapChildren_of_le (Nat.le_of_not_lt hparent)] at hrun
    cases hrun

/-- The second exchange finds the two nodes in each other's place. -/
theorem swapChildren_undo (hf : draft.Forest)
    (hrun : swapChildren parent first second draft = .ok () draft') :
    swapChildren parent first second draft' = .ok () draft ∧
      swapChildren parent second first draft' = .ok () draft := by
  have hf' : draft'.Forest := by
    simpa only [hrun, final_ok] using forest_swapChildren parent first second draft hf
  obtain ⟨node, hnode, hfirst, hsecond, rfl⟩ := exists_of_swapChildren hf hrun
  have hnode' := Draft.node?_arrange (node.children.map (Equiv.swap first second)) hnode
  have hfirst' : first ∈ node.children.map (Equiv.swap first second) :=
    Array.mem_map.mpr ⟨second, hsecond, Equiv.swap_apply_right first second⟩
  have hsecond' : second ∈ node.children.map (Equiv.swap first second) :=
    Array.mem_map.mpr ⟨first, hfirst, Equiv.swap_apply_left first second⟩
  rw [swapChildren_of_mem hf' hnode' hfirst' hsecond',
    swapChildren_of_mem hf' hnode' hsecond' hfirst', Equiv.swap_comm second first,
    map_swap_map_swap, Draft.arrange_arrange, Draft.arrange_self hnode]
  exact ⟨rfl, rfl⟩

/-- The nodes outside of the exchange: what lies beneath them does not change. -/
theorem tree_arrange (hf : draft.Forest) {children : Array NodeId}
    (hf' : (draft.arrange parent children).Forest) {way : List NodeId}
    (hway : draft.Ascends parent way) {id : NodeId} (hid : id.index < draft.size)
    (hout : id ∉ way) :
    ∃ tree, draft.tree id = .ok tree ∧ (draft.arrange parent children).tree id = .ok tree := by
  obtain ⟨t, rfl, hstored, -, htree⟩ := hf.exists_tree (Expression.node?_isSome_iff.mpr hid)
  have hfree : parent ∉ t.ids := mt (hf.mem_ids_iff hstored hway).mp hout
  have hstored' : (draft.arrange parent children).Stored (draft.parentOf t.id) t :=
    hstored.congr fun i hi => Draft.node?_modify_of_ne fun heq => hfree (heq ▸ hi)
  exact ⟨t.tree, htree, hf'.tree_eq hstored'⟩

theorem exchanged_arrange (hnode : draft.node? parent = some node) (hfirst : first ∈ node.children)
    (hsecond : second ∈ node.children) :
    draft.Exchanged (draft.arrange parent (node.children.map (Equiv.swap first second))) parent
      first second := by
  refine ⟨⟨node, Expression.node_ok_iff.mpr hnode, hfirst, hsecond, ?_⟩, ?_, rfl,
    Draft.size_modify, rfl, ?_⟩
  · exact Expression.node_ok_iff.mpr (Draft.node?_arrange _ hnode)
  · intro other hother
    exact Expression.node_congr Draft.size_modify (Draft.node?_modify_of_ne hother)
  · rintro rfl
    have hsame : node.children.map (Equiv.swap first first) = node.children := by
      rw [Equiv.swap_self]
      exact Array.map_id _
    rw [hsame]
    exact Draft.arrange_self hnode

/-- In a forest, being a child of a node and having it as the parent are the same. -/
theorem exists_swapChildren_iff (hf : draft.Forest) :
    (∃ draft', swapChildren parent first second draft = .ok () draft') ↔
      draft.parent first = .ok (some parent) ∧ draft.parent second = .ok (some parent) := by
  rw [Expression.parent_eq_some_iff, Expression.parent_eq_some_iff, ← hf.agree, ← hf.agree]
  constructor
  · rintro ⟨draft', hrun⟩
    obtain ⟨node, hnode, hfirst, hsecond, -⟩ := exists_of_swapChildren hf hrun
    rw [Expression.childrenOf_eq hnode, Array.mem_toList_iff, Array.mem_toList_iff]
    exact ⟨hfirst, hsecond⟩
  · rintro ⟨hfirst, hsecond⟩
    obtain ⟨children, hrun⟩ := exists_swapChildren hfirst hsecond
    exact ⟨_, hrun⟩

/-! ## Shifts -/

variable {path path' : TreePath} {offset : Int64} {id sibling : NodeId} {position target : UInt64}

theorem exists_shiftable_of_shift (hf : draft.Forest)
    (hrun : shift path offset draft = .ok path' draft') :
    ∃ id parent sibling position target,
      draft.Shiftable path offset id parent sibling position target := by
  by_contra hnone
  simp only [not_exists] at hnone
  rw [shift_of_not_shiftable hf hnone] at hrun
  cases hrun

/-- A shift is an exchange of the node with the sibling at the position where it is to go. -/
theorem shift_of_siblings (hf : draft.Forest)
    (h : draft.Shiftable path offset id parent sibling position target) :
    ∃ outer, draft.node? parent = some outer ∧
      outer.children[position.toNat]? = some id ∧ outer.children[target.toNat]? = some sibling ∧
      shift path offset draft = .ok ⟨path.entries.dropLast ++ [target]⟩
        ((draft.note (.shifting id position target)).arrange parent
          (outer.children.map (Equiv.swap id sibling))) := by
  obtain ⟨outer, houter, hrun⟩ := shift_of_shiftable hf h
  obtain ⟨front, -, -, hposition⟩ := h.exists_front hf
  have hsibling := h.sibling_eq
  rw [Expression.childrenOf_eq houter, Array.getElem?_toList] at hposition hsibling
  rw [(hf.settled houter).swapIfInBounds_eq_map hposition hsibling] at hrun
  exact ⟨outer, houter, hposition, hsibling, hrun⟩

/-- An offset between two children is small enough for its opposite to be written down. -/
theorem toInt_neg_offset (hf : draft.Forest)
    (h : draft.Shiftable path offset id parent sibling position target) :
    (-offset).toInt = -offset.toInt := by
  obtain ⟨front, -, -, hposition⟩ := h.exists_front hf
  obtain ⟨node, hnode, -⟩ :=
    Expression.exists_node?_of_mem_childrenOf (List.mem_of_getElem? hposition)
  have hlength := NodeId.length_le_of_nodup (hf.settled hnode).nodup
  rw [← Expression.childrenOf_eq hnode] at hlength
  obtain ⟨hlt, -⟩ := List.getElem?_eq_some_iff.mp hposition
  have htarget := offsetPosition?_eq_some_iff.mp h.target_eq
  have hle : offset.toInt < 2 ^ 63 := offset.toInt_lt
  rw [Int64.toInt_neg]
  apply Int.bmod_eq_of_le_mul_two <;> omega

/-- After a shift, the opposite one finds the two siblings in each other's place. -/
theorem shiftable_back (hf : draft.Forest) {outer : Node} (record : Record)
    (h : draft.Shiftable path offset id parent sibling position target)
    (houter : draft.node? parent = some outer)
    (hposition : outer.children[position.toNat]? = some id)
    (hsibling : outer.children[target.toNat]? = some sibling) :
    ((draft.note record).arrange parent (outer.children.map (Equiv.swap id sibling))).Shiftable
      ⟨path.entries.dropLast ++ [target]⟩ (-offset) id parent sibling target position := by
  obtain ⟨front, hentries, hfront, -⟩ := h.exists_front hf
  refine ⟨?_, (Draft.parentOf_arrange id).trans h.parent_eq, ?_, ?_, ?_⟩
  · rw [hentries, List.dropLast_concat]
    apply resolve_arrange hf houter hfront
    rw [Array.getElem?_map, hsibling, Option.map_some, Equiv.swap_apply_right]
  · simp [TreePath.last?]
  · have htarget := offsetPosition?_eq_some_iff.mp h.target_eq
    rw [offsetPosition?_eq_some_iff, toInt_neg_offset hf h]
    omega
  · have houter' : (draft.note record).node? parent = some outer := houter
    rw [Expression.childrenOf_eq (Draft.node?_arrange _ houter'), Array.getElem?_toList,
      Array.getElem?_map, hposition, Option.map_some, Equiv.swap_apply_left]

/-- The opposite shift takes a shift back, up to the records of the two. -/
theorem shift_undo (hf : draft.Forest) (hrun : shift path offset draft = .ok path' draft') :
    (-offset).toInt = -offset.toInt ∧ ∃ draft'', shift path' (-offset) draft' = .ok path draft'' ∧
      draft''.toExpression = draft.toExpression := by
  have hf' : draft'.Forest := by
    simpa only [hrun, final_ok] using forest_shift path offset draft hf
  obtain ⟨id, parent, sibling, position, target, h⟩ := exists_shiftable_of_shift hf hrun
  obtain ⟨outer, houter, hposition, hsibling, hshift⟩ := shift_of_siblings hf h
  obtain ⟨rfl, rfl⟩ := EStateM.Result.ok.inj (hrun.symm.trans hshift)
  have hback := shiftable_back hf (.shifting id position target) h houter hposition hsibling
  obtain ⟨outer', houter', -, -, hshift'⟩ := shift_of_siblings hf' hback
  have hnoted : (draft.note (.shifting id position target)).node? parent = some outer := houter
  have hnoted' : ((draft.note (.shifting id position target)).note
      (.shifting id target position)).node? parent = some outer := houter
  obtain rfl := Option.some.inj (houter'.symm.trans (Draft.node?_arrange _ hnoted))
  have hpath : (⟨(path.entries.dropLast ++ [target]).dropLast ++ [position]⟩ : TreePath) = path := by
    obtain ⟨front, hentries, -⟩ := h.exists_front hf
    rw [List.dropLast_concat, hentries, List.dropLast_concat, ← hentries]
  -- The second record comes after the first exchange, which it does not change.
  have hrestored : (((draft.note (.shifting id position target)).arrange parent
      (outer.children.map (Equiv.swap id sibling))).note (.shifting id target position)).arrange
        parent outer.children =
      (draft.note (.shifting id position target)).note (.shifting id target position) :=
    (Draft.arrange_arrange outer.children).trans (Draft.arrange_self hnoted')
  rw [map_swap_map_swap, hpath, hrestored] at hshift'
  exact ⟨toInt_neg_offset hf h, _, hshift', rfl⟩

end Edit

namespace Reachable

/-- An exchange succeeds exactly when both nodes have `parent` as their parent. The two stand in
each other's place then, and all else is as it was, so that the inline forms change beneath the
ancestors of the exchanged nodes only. -/
theorem exchange_iff_siblings {e : Expression} (h : Reachable e) (hroom : e.size ≤ 2 ^ 32)
    (parent first second : NodeId) (log : Log) :
    ((∃ draft, Edit.swapChildren parent first second ⟨e, log⟩ = .ok () draft) ↔
      e.parent first = .ok (some parent) ∧ e.parent second = .ok (some parent)) ∧
    ∀ draft, Edit.swapChildren parent first second ⟨e, log⟩ = .ok () draft →
      (⟨e, log⟩ : Draft).Exchanged draft parent first second ∧
      ∃ way, e.ancestors parent = .ok way ∧ ∀ id, id.index < e.size → id ∉ way →
        ∃ text, e.inline id = .ok text ∧ draft.inline id = .ok text := by
  have hf : (Draft.mk e log).Forest := h.forest hroom
  refine ⟨Edit.exists_swapChildren_iff hf, ?_⟩
  intro draft hrun
  have hf' : draft.Forest := by
    simpa only [hrun, final_ok] using Edit.forest_swapChildren parent first second ⟨e, log⟩ hf
  obtain ⟨node, hnode, hfirst, hsecond, rfl⟩ := Edit.exists_of_swapChildren hf hrun
  obtain ⟨way, hway⟩ := hf.grounded parent
  refine ⟨Edit.exchanged_arrange hnode hfirst hsecond, way,
    hf.ancestors_eq hway ⟨node, hnode⟩, fun id hid hout => ?_⟩
  obtain ⟨tree, hbefore, hafter⟩ := Edit.tree_arrange hf hf' hway hid hout
  exact ⟨tree.inline, Expression.inline_ok hbefore, Expression.inline_ok hafter⟩

/-- The factors of the product change places. The literal next to it does not notice, and it
cannot change places with one of them. -/
theorem exchange_iff_siblings_of_product :
    ∃ draft, Expression.productInSum.inline ⟨0⟩ = .ok "x*y+z" ∧
      Edit.swapChildren ⟨1⟩ ⟨2⟩ ⟨3⟩ ⟨.productInSum, #[]⟩ = .ok () draft ∧
      draft.children ⟨1⟩ = .ok #[⟨3⟩, ⟨2⟩] ∧
      draft.inline ⟨4⟩ = Expression.productInSum.inline ⟨4⟩ ∧
      ¬ ∃ draft, Edit.swapChildren ⟨1⟩ ⟨2⟩ ⟨4⟩ ⟨.productInSum, #[]⟩ = .ok () draft := by
  obtain ⟨hsiblings, hafter⟩ := exchange_iff_siblings productInSum (by decide) ⟨1⟩ ⟨2⟩ ⟨3⟩ #[]
  obtain ⟨hothers, -⟩ := exchange_iff_siblings productInSum (by decide) ⟨1⟩ ⟨2⟩ ⟨4⟩ #[]
  obtain ⟨draft, hrun⟩ := hsiblings.mpr ⟨rfl, rfl⟩
  obtain ⟨hexchanged, way, hway, hframe⟩ := hafter draft hrun
  obtain ⟨outer, houter, -, -, hchildren⟩ := hexchanged.outer_eq
  obtain rfl := Except.ok.inj houter
  obtain rfl := Except.ok.inj hway
  obtain ⟨text, hbefore, htext⟩ := hframe ⟨4⟩ (by decide) (by decide)
  refine ⟨draft, rfl, hrun, ?_, htext.trans hbefore.symm, hothers.not.mpr ?_⟩
  · rw [Expression.children, hchildren]
    change Except.ok ((#[⟨2⟩, ⟨3⟩] : Array NodeId).map (Equiv.swap ⟨2⟩ ⟨3⟩)) = _
    simp
  · rintro ⟨-, hparent⟩
    cases hparent

/-- Exchanging two nodes again, in the same order or the other, restores everything, and so does
a shift by the opposite offset, which is always a number that can be written down. -/
theorem reordering_undone {e : Expression} (h : Reachable e) (hroom : e.size ≤ 2 ^ 32)
    (log : Log) :
    (∀ parent first second draft,
      Edit.swapChildren parent first second ⟨e, log⟩ = .ok () draft →
      Edit.swapChildren parent first second draft = .ok () ⟨e, log⟩ ∧
      Edit.swapChildren parent second first draft = .ok () ⟨e, log⟩) ∧
    ∀ path offset path' draft, Edit.shift path offset ⟨e, log⟩ = .ok path' draft →
      (-offset).toInt = -offset.toInt ∧
      ∃ draft', Edit.shift path' (-offset) draft = .ok path draft' ∧ draft'.toExpression = e := by
  have hf : (Draft.mk e log).Forest := h.forest hroom
  exact ⟨fun _ _ _ _ hrun => Edit.swapChildren_undo hf hrun,
    fun _ _ _ _ hrun => Edit.shift_undo hf hrun⟩

/-- The factors change places and back again, first by an exchange and then by a shift. -/
theorem reordering_undone_of_product :
    ∃ exchanged path' shifted restored, Expression.productInSum.inline ⟨0⟩ = .ok "x*y+z" ∧
      Edit.swapChildren ⟨1⟩ ⟨2⟩ ⟨3⟩ ⟨.productInSum, #[]⟩ = .ok () exchanged ∧
      exchanged.inline ⟨0⟩ = .ok "y*x+z" ∧
      Edit.swapChildren ⟨1⟩ ⟨3⟩ ⟨2⟩ exchanged = .ok () ⟨.productInSum, #[]⟩ ∧
      Edit.shift ⟨[0, 0]⟩ 1 ⟨.productInSum, #[]⟩ = .ok path' shifted ∧ path' = ⟨[0, 1]⟩ ∧
      shifted.inline ⟨0⟩ = .ok "y*x+z" ∧
      Edit.shift path' (-1) shifted = .ok ⟨[0, 0]⟩ restored ∧
      restored.toExpression = .productInSum := by
  have hf : (Draft.mk .productInSum #[]).Forest := productInSum.forest (by decide)
  obtain ⟨hexchange, hshift⟩ := reordering_undone productInSum (by decide) #[]
  have hchildren : (#[⟨2⟩, ⟨3⟩] : Array NodeId).map (Equiv.swap ⟨2⟩ ⟨3⟩) = #[⟨3⟩, ⟨2⟩] := by simp
  have hexchanged : Edit.swapChildren ⟨1⟩ ⟨2⟩ ⟨3⟩ ⟨.productInSum, #[]⟩ =
      .ok () (Draft.arrange ⟨.productInSum, #[]⟩ ⟨1⟩ #[⟨3⟩, ⟨2⟩]) := by
    have hnode : Expression.productInSum.node? ⟨1⟩ =
        some ⟨.compound (.operation .multiply), some ⟨0⟩, #[⟨2⟩, ⟨3⟩], Pending.empty⟩ := rfl
    rw [← hchildren]
    exact Edit.swapChildren_of_mem hf hnode (by simp) (by simp)
  have hshiftable : Expression.productInSum.Shiftable ⟨[0, 0]⟩ 1 ⟨2⟩ ⟨1⟩ ⟨3⟩ 0 1 :=
    ⟨rfl, rfl, rfl, by decide, rfl⟩
  obtain ⟨outer, houter, hshifted⟩ := Edit.shift_of_shiftable hf hshiftable
  obtain rfl := Option.some.inj houter
  obtain ⟨-, restored, hrestored, heq⟩ := hshift ⟨[0, 0]⟩ 1 _ _ hshifted
  exact ⟨_, _, _, restored, rfl, hexchanged, rfl, (hexchange ⟨1⟩ ⟨2⟩ ⟨3⟩ _ hexchanged).2,
    hshifted, rfl, rfl, hrestored, heq⟩

end Reachable
end ExprTree
