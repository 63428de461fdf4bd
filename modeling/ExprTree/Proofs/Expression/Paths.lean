import ExprTree.Expression.Navigation
import ExprTree.Proofs.Expression.Forest
import Mathlib.Logic.Relation

/-!
# Ways down

Positions lead from a node down to another one. In a forest every node that lies beneath
another is led to, and climbing from where the positions lead takes them back one by one.
A node that has no parent is thus left in one way only for each node beneath it.
-/

namespace ExprTree.Expression

/-- Going down from a node along the positions ends at another node. -/
inductive Leads (e : Expression) : NodeId → List UInt64 → NodeId → Prop where
  | here (id : NodeId) : Leads e id [] id
  | down {top child id : NodeId} {position : UInt64} {rest : List UInt64} :
      (e.childrenOf top)[position.toNat]? = some child → Leads e child rest id →
      Leads e top (position :: rest) id

/-- The node lies beneath `top`, or is `top` itself. -/
def Beneath (e : Expression) (top id : NodeId) : Prop :=
  Relation.ReflTransGen (fun parent child => child ∈ e.childrenOf parent) top id

variable {e : Expression} {top child id : NodeId} {position : UInt64} {positions : List UInt64}

/-! ## Going down -/

theorem descend_cons {node : Node} (hnode : e.node? top = some node) (rest : List UInt64) :
    e.descend top (position :: rest) =
      match node.children[position.toNat]? with
      | some child => e.descend child rest
      | none => .ok none := by
  rw [descend, children_ok hnode]
  rfl

theorem descend_cons_of_getElem? (h : (e.childrenOf top)[position.toNat]? = some child)
    (rest : List UInt64) : e.descend top (position :: rest) = e.descend child rest := by
  obtain ⟨node, hnode, -⟩ := exists_node?_of_mem_childrenOf (List.mem_of_getElem? h)
  rw [childrenOf_eq hnode, Array.getElem?_toList] at h
  rw [descend_cons hnode, h]

theorem descend_cons_of_none {node : Node} (hnode : e.node? top = some node)
    (h : (e.childrenOf top)[position.toNat]? = none) (rest : List UInt64) :
    e.descend top (position :: rest) = .ok none := by
  rw [childrenOf_eq hnode, Array.getElem?_toList] at h
  rw [descend_cons hnode, h]

namespace Leads

theorem descend_eq (h : e.Leads top positions id) : e.descend top positions = .ok (some id) := by
  induction h with
  | here id => rfl
  | down hchild _ ih => rw [descend_cons_of_getElem? hchild, ih]

theorem snoc (h : e.Leads top positions id)
    (hchild : (e.childrenOf id)[position.toNat]? = some child) :
    e.Leads top (positions ++ [position]) child := by
  induction h with
  | here id => exact .down hchild (.here child)
  | down hfirst _ ih => exact .down hfirst (ih hchild)

/-- The last step of a way down starts at the node that the rest of it leads to. -/
theorem exists_parent (h : e.Leads top (positions ++ [position]) id) :
    ∃ parent, e.Leads top positions parent ∧ (e.childrenOf parent)[position.toNat]? = some id := by
  induction positions generalizing top with
  | nil =>
    cases h with
    | down hchild hrest =>
      cases hrest
      exact ⟨top, .here top, hchild⟩
  | cons first rest ih =>
    cases h with
    | down hchild hrest =>
      obtain ⟨parent, hleads, hlast⟩ := ih hrest
      exact ⟨parent, .down hchild hleads, hlast⟩

theorem beneath (h : e.Leads top positions id) : e.Beneath top id := by
  induction h with
  | here id => exact .refl
  | down hchild _ ih => exact .head (List.mem_of_getElem? hchild) ih

end Leads

/-- What lies beneath a node are the nodes of the subtree that is stored there. -/
theorem Stored.beneath_iff {parent : Option NodeId} {t : Subtree} (h : e.Stored parent t) :
    e.Beneath t.id id ↔ id ∈ t.ids := by
  constructor
  · intro hbeneath
    induction hbeneath with
    | refl => exact t.id_mem_ids
    | tail _ hchild ih => exact (h.of_mem_childrenOf ih hchild).1
  · intro hid
    induction h with
    | @node parent root content children hnode _ _ ih =>
      obtain rfl | ⟨child, hchild, hid⟩ := Subtree.mem_ids_node.mp hid
      · exact .refl
      · refine .head ?_ (ih child hchild hid)
        rw [Subtree.id_node, childrenOf_eq hnode]
        exact List.mem_map_of_mem hchild

namespace Forest

theorem exists_node?_of_leads (hf : e.Forest) (h : e.Leads top positions id)
    (htop : ∃ node, e.node? top = some node) : ∃ node, e.node? id = some node := by
  induction h with
  | here id => exact htop
  | down hchild _ ih => exact ih (hf.exists_node?_child (List.mem_of_getElem? hchild))

/-- Going down ends at the node that the positions lead to, or in front of a position that
has no child. -/
theorem leads_or_descend_eq_none (hf : e.Forest) (htop : ∃ node, e.node? top = some node)
    (positions : List UInt64) :
    (∃ id, e.Leads top positions id) ∨ e.descend top positions = .ok none := by
  induction positions generalizing top with
  | nil => exact .inl ⟨top, .here top⟩
  | cons position rest ih =>
    cases hchild : (e.childrenOf top)[position.toNat]? with
    | none =>
      obtain ⟨node, hnode⟩ := htop
      exact .inr (descend_cons_of_none hnode hchild rest)
    | some child =>
      rw [descend_cons_of_getElem? hchild]
      exact (ih (hf.exists_node?_child (List.mem_of_getElem? hchild))).imp_left
        fun ⟨id, h⟩ => ⟨id, .down hchild h⟩

theorem descend_eq_some_iff (hf : e.Forest) (htop : ∃ node, e.node? top = some node) :
    e.descend top positions = .ok (some id) ↔ e.Leads top positions id := by
  refine ⟨?_, Leads.descend_eq⟩
  intro h
  obtain ⟨other, hleads⟩ | hnone := hf.leads_or_descend_eq_none htop positions
  · obtain rfl := Option.some.inj (Except.ok.inj (hleads.descend_eq.symm.trans h))
    exact hleads
  · rw [hnone] at h
    cases h

/-- Every child stands at a position, since there are more positions than handles. -/
theorem exists_position (hf : e.Forest) (h : child ∈ e.childrenOf top) :
    ∃ position : UInt64, (e.childrenOf top)[position.toNat]? = some child := by
  obtain ⟨node, hnode, -⟩ := exists_node?_of_mem_childrenOf h
  have hlength := NodeId.length_le_of_nodup (hf.settled hnode).nodup
  obtain ⟨index, hindex, hchild⟩ := List.getElem_of_mem h
  have hfits : index < UInt64.size := by
    rw [childrenOf_eq hnode] at hindex
    exact (hindex.trans_le hlength).trans (by decide)
  refine ⟨UInt64.ofNat index, ?_⟩
  rw [UInt64.toNat_ofNat_of_lt' hfits, List.getElem?_eq_getElem hindex, hchild]

theorem beneath_iff_leads (hf : e.Forest) :
    e.Beneath top id ↔ ∃ positions, e.Leads top positions id := by
  constructor
  · intro h
    induction h with
    | refl => exact ⟨[], .here top⟩
    | tail _ hchild ih =>
      obtain ⟨positions, h⟩ := ih
      obtain ⟨position, hposition⟩ := hf.exists_position hchild
      exact ⟨positions ++ [position], h.snoc hposition⟩
  · rintro ⟨positions, h⟩
    exact h.beneath

/-! ## Climbing back -/

theorem climbWithin_top {node : Node} (hnode : e.node? top = some node) (hnone : e.parentOf top = none)
    (steps : Nat) (below : List UInt64) :
    e.climbWithin (steps + 1) top below =
      .ok (if top = e.root then some ⟨below⟩ else none) := by
  rw [climbWithin, parent_ok hnode, ← parentOf_eq hnode, hnone]
  rfl

/-- One step up from a child takes back the position that it stands at. -/
theorem climbWithin_child (hf : e.Forest)
    (hchild : (e.childrenOf top)[position.toNat]? = some child) (steps : Nat)
    (below : List UInt64) :
    e.climbWithin (steps + 1) child below = e.climbWithin steps top (position :: below) := by
  have hmem := List.mem_of_getElem? hchild
  have hparent := hf.agree.mp hmem
  obtain ⟨childNode, hchildNode⟩ := hf.exists_node?_child hmem
  obtain ⟨node, hnode, -⟩ := exists_node?_of_mem_childrenOf hmem
  have hindex : node.children.idxOf? child = some position.toNat := by
    rw [childrenOf_eq hnode, Array.getElem?_toList] at hchild
    obtain ⟨hlt, hfound⟩ := (hf.settled hnode).finIdxOf?_eq hchild
    rw [Array.idxOf?_eq_map_finIdxOf?_val, hfound]
    rfl
  rw [climbWithin, parent_ok hchildNode, ← parentOf_eq hchildNode, hparent]
  simp only [bind, Except.bind, children_ok hnode, hindex, UInt64.ofNat_toNat]

/-- Climbing from where the positions lead takes them all back. -/
theorem climbWithin_of_leads (hf : e.Forest) (h : e.Leads top positions id) (steps : Nat)
    (below : List UInt64) :
    e.climbWithin (steps + positions.length) id below =
      e.climbWithin steps top (positions ++ below) := by
  induction h generalizing steps with
  | here id => rfl
  | @down top child id position rest hchild _ ih =>
    rw [List.length_cons, Nat.add_comm rest.length, ← Nat.add_assoc, ih, List.cons_append,
      hf.climbWithin_child hchild]

theorem exists_ascends_of_leads (hf : e.Forest) (h : e.Leads top positions id)
    {way : List NodeId} (hway : e.Ascends top way) :
    ∃ front, e.Ascends id (front ++ way) ∧ front.length = positions.length := by
  induction h generalizing way with
  | here id => exact ⟨[], hway, rfl⟩
  | down hchild _ ih =>
    have hparent := hf.agree.mp (List.mem_of_getElem? hchild)
    obtain ⟨front, hfront, hlength⟩ := ih (.step hparent hway)
    refine ⟨front ++ [_], by simpa using hfront, by simp [hlength]⟩

/-- Going down never comes back to where it started. -/
theorem ne_of_leads (hf : e.Forest) (h : e.Leads top positions id) (hdown : positions ≠ []) :
    top ≠ id := by
  rintro rfl
  obtain ⟨way, hway⟩ := hf.grounded top
  obtain ⟨front, hfront, hlength⟩ := hf.exists_ascends_of_leads h hway
  rw [hway.eq_nil_of_append hfront] at hlength
  exact hdown (List.eq_nil_of_length_eq_zero hlength.symm)

/-- The children of the node that a way leads to do not matter for the way. -/
theorem leads_congr (hf : e.Forest) {e' : Expression} (h : e.Leads top positions id)
    (hsame : ∀ other, other ≠ id → e'.childrenOf other = e.childrenOf other) :
    e'.Leads top positions id := by
  induction h with
  | here id => exact .here id
  | @down top child id position rest hchild hrest ih =>
    have hne := hf.ne_of_leads (.down hchild hrest) (List.cons_ne_nil _ _)
    refine .down ?_ (ih hsame)
    rwa [hsame top hne]

theorem exists_leads_of_ascends (hf : e.Forest) {way : List NodeId} (h : e.Ascends id way) :
    ∃ top positions, e.parentOf top = none ∧ e.Leads top positions id := by
  induction h with
  | @top id hnone => exact ⟨id, [], hnone, .here id⟩
  | step hparent _ ih =>
    obtain ⟨top, positions, hnone, h⟩ := ih
    obtain ⟨position, hposition⟩ := hf.exists_position (hf.agree.mpr hparent)
    exact ⟨top, positions ++ [position], hnone, h.snoc hposition⟩

/-- Where a way down starts at a node without a parent, the path is that way. -/
theorem pathTo_of_leads (hf : e.Forest) (h : e.Leads top positions id)
    (hnone : e.parentOf top = none) (htop : ∃ node, e.node? top = some node) :
    e.pathTo id = .ok (if top = e.root then some ⟨positions⟩ else none) := by
  obtain ⟨front, hway, hlength⟩ := hf.exists_ascends_of_leads h (.top hnone)
  have hfits := hf.length_way_le hway (hf.exists_node?_of_leads h htop)
  rw [List.length_append, List.length_singleton, hlength] at hfits
  obtain ⟨steps, hsteps⟩ : ∃ steps, e.depthBound = steps + 1 + positions.length :=
    ⟨e.size - positions.length, by rw [depthBound]; omega⟩
  obtain ⟨node, hnode⟩ := htop
  rw [pathTo, hsteps, hf.climbWithin_of_leads h, climbWithin_top hnode hnone, List.append_nil]

/-! ## Paths from the root -/

variable {path : TreePath}

theorem resolve_eq_some_iff (hf : e.Forest) :
    e.resolve path = .ok (some id) ↔ e.Leads e.root path.entries id :=
  hf.descend_eq_some_iff (node?_isSome_iff.mpr hf.root)

theorem leads_or_resolve_eq_none (hf : e.Forest) (path : TreePath) :
    (∃ id, e.Leads e.root path.entries id) ∨ e.resolve path = .ok none :=
  hf.leads_or_descend_eq_none (node?_isSome_iff.mpr hf.root) path.entries

theorem index_lt_of_leads (hf : e.Forest) {positions : List UInt64}
    (h : e.Leads e.root positions id) : id.index < e.size :=
  node?_isSome_iff.mp (hf.exists_node?_of_leads h (node?_isSome_iff.mpr hf.root))

/-- One level up from a node on a path is its parent. -/
theorem exists_resolve_pop_one (hf : e.Forest) (h : e.resolve path = .ok (some id))
    (hpath : 0 < path.length) :
    ∃ parent, e.parentOf id = some parent ∧ e.resolve (path.pop 1) = .ok (some parent) := by
  obtain ⟨positions⟩ := path
  obtain ⟨front, position, rfl⟩ :=
    (List.eq_nil_or_concat' positions).resolve_left (List.ne_nil_of_length_pos hpath)
  obtain ⟨parent, hleads, hchild⟩ := (hf.resolve_eq_some_iff.mp h).exists_parent
  refine ⟨parent, hf.agree.mp (List.mem_of_getElem? hchild), ?_⟩
  have hpop : TreePath.pop ⟨front ++ [position]⟩ 1 = ⟨front⟩ := by
    rw [← TreePath.push, TreePath.pop_push, TreePath.pop_zero]
  rw [hpop, hf.resolve_eq_some_iff]
  exact hleads

/-- Going up along a path by some levels is going up through as many parents. -/
theorem exists_resolve_pop (hf : e.Forest) (h : e.resolve path = .ok (some id))
    (hway : e.Ascends id way) {levels : Nat} (hlevels : levels ≤ path.length) :
    ∃ above, way[levels]? = some above ∧ e.resolve (path.pop levels) = .ok (some above) := by
  induction levels with
  | zero =>
    obtain ⟨rest, rfl⟩ := hway.exists_cons
    exact ⟨id, rfl, by rwa [TreePath.pop_zero]⟩
  | succ levels ih =>
    obtain ⟨below, hbelow, hresolve⟩ := ih (Nat.le_of_succ_le hlevels)
    obtain ⟨parent, hparent, hup⟩ := hf.exists_resolve_pop_one hresolve (by
      simp only [TreePath.length, TreePath.pop, List.length_take] at hlevels ⊢
      omega)
    exact ⟨parent, (hway.getElem?_succ hbelow).trans hparent, by rwa [TreePath.pop_succ]⟩

/-- Every node has a topmost node above it, and a path if that one is the root. -/
theorem exists_pathTo_eq (hf : e.Forest) (hid : id.index < e.size) :
    ∃ top positions, e.Leads top positions id ∧
      e.pathTo id = .ok (if top = e.root then some ⟨positions⟩ else none) := by
  obtain ⟨way, hway⟩ := hf.grounded id
  obtain ⟨top, positions, hnone, hleads⟩ := hf.exists_leads_of_ascends hway
  obtain ⟨front, hfront, -⟩ := hf.exists_ascends_of_leads hleads (.top hnone)
  have htop := hf.exists_node?_of_mem_way hfront (node?_isSome_iff.mpr hid)
    (List.mem_append_right _ (List.mem_singleton_self top))
  exact ⟨top, positions, hleads, hf.pathTo_of_leads hleads hnone htop⟩

theorem pathTo_of_leads_root (hf : e.Forest) (hroot : e.parentOf e.root = none)
    {positions : List UInt64} (h : e.Leads e.root positions id) :
    e.pathTo id = .ok (some ⟨positions⟩) := by
  rw [hf.pathTo_of_leads h hroot (node?_isSome_iff.mpr hf.root), if_pos rfl]

theorem resolve_iff_pathTo (hf : e.Forest) (hroot : e.parentOf e.root = none)
    (hid : id.index < e.size) :
    e.resolve path = .ok (some id) ↔ e.pathTo id = .ok (some path) := by
  rw [hf.resolve_eq_some_iff]
  refine ⟨hf.pathTo_of_leads_root hroot, ?_⟩
  intro hpath
  obtain ⟨top, positions, hleads, heq⟩ := hf.exists_pathTo_eq hid
  rw [hpath, Except.ok.injEq] at heq
  split at heq
  · rename_i htop
    obtain rfl := Option.some.inj heq
    exact htop ▸ hleads
  · cases heq

theorem pathTo_eq_none_iff (hf : e.Forest) (hroot : e.parentOf e.root = none)
    (hid : id.index < e.size) : e.pathTo id = .ok none ↔ ¬ e.Beneath e.root id := by
  rw [hf.beneath_iff_leads, not_exists]
  constructor
  · intro hnone positions hleads
    rw [hf.pathTo_of_leads_root hroot hleads] at hnone
    cases hnone
  · intro hout
    obtain ⟨top, positions, hleads, heq⟩ := hf.exists_pathTo_eq hid
    rw [heq, if_neg]
    rintro rfl
    exact hout positions hleads

end Forest
end ExprTree.Expression
