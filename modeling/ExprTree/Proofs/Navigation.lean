import ExprTree.Proofs.Expression.Paths
import ExprTree.Proofs.Reachable

/-!
# Paths and nodes

A path either leads from the root to a node or ends where a position has no child. When the
root has no parent, the node at a path and the path to a node determine each other: what
lies beneath the root has one path, and nothing else has any. Going up along a path climbs the
ancestors of its node, wherever the root is.
-/

namespace ExprTree.Reachable

/-- Following paths and finding the path to a node are inverse to each other. Each node beneath
the root has exactly one path, no two paths lead to the same node, and the nodes without a
path are those that do not lie beneath the root. Neither look-up ever fails. -/
theorem resolve_inverse_pathTo {e : Expression} (h : Reachable e) (hroom : e.size ≤ 2 ^ 32)
    (hroot : e.parent e.root = .ok none) :
    (∀ path id, id.index < e.size →
      (e.resolve path = .ok (some id) ↔ e.pathTo id = .ok (some path))) ∧
    (∀ id, e.Beneath e.root id → ∃! path, e.resolve path = .ok (some id)) ∧
    (∀ path path' id, e.resolve path = .ok (some id) → e.resolve path' = .ok (some id) →
      path = path') ∧
    (∀ id, id.index < e.size → (e.pathTo id = .ok none ↔ ¬ e.Beneath e.root id)) ∧
    ∀ path, e.resolve path = .ok none ∨
      ∃ id, id.index < e.size ∧ e.resolve path = .ok (some id) := by
  have hf := h.forest hroom
  rw [Expression.parent_of_lt hf.root, Except.ok.injEq] at hroot
  have hunique : ∀ path path' id, e.resolve path = .ok (some id) →
      e.resolve path' = .ok (some id) → path = path' := by
    intro path path' id hpath hpath'
    have hto := hf.pathTo_of_leads_root hroot (hf.resolve_eq_some_iff.mp hpath)
    have hto' := hf.pathTo_of_leads_root hroot (hf.resolve_eq_some_iff.mp hpath')
    exact Option.some.inj (Except.ok.inj (hto.symm.trans hto'))
  refine ⟨fun _ _ => hf.resolve_iff_pathTo hroot, ?_, hunique, fun _ =>
    hf.pathTo_eq_none_iff hroot, ?_⟩
  · intro id hbeneath
    obtain ⟨positions, hleads⟩ := hf.beneath_iff_leads.mp hbeneath
    have hpath : e.resolve ⟨positions⟩ = .ok (some id) := hf.resolve_eq_some_iff.mpr hleads
    exact ⟨⟨positions⟩, hpath, fun other hother => hunique other _ id hother hpath⟩
  · intro path
    obtain ⟨id, hleads⟩ | hnone := hf.leads_or_resolve_eq_none path
    · exact .inr ⟨id, hf.index_lt_of_leads hleads, hf.resolve_eq_some_iff.mpr hleads⟩
    · exact .inl hnone

/-- A literal in a sum that is itself in a sum, beside a node that was never attached. -/
theorem resolve_inverse_pathTo_of_sum :
    ∃ e, Reachable e ∧ e.size = 4 ∧ e.parent e.root = .ok none ∧
      e.resolve ⟨[0, 0]⟩ = .ok (some ⟨2⟩) ∧ e.pathTo ⟨2⟩ = .ok (some ⟨[0, 0]⟩) ∧
      e.pathTo ⟨3⟩ = .ok none ∧ ¬ e.Beneath e.root ⟨3⟩ := by
  have hsum := Reachable.ofContent (.compound (.operation .add))
  have hinner :=
    (hsum.edit (.insert (.compound (.operation .add))) #[]).edit (.addChild ⟨0⟩ ⟨1⟩) #[]
  have hx := (hinner.edit (.insert (.literal ⟨"x", by decide⟩)) #[]).edit (.addChild ⟨1⟩ ⟨2⟩) #[]
  have hloose := hx.edit (.insert (.compound .parentheses)) #[]
  obtain ⟨hinverse, -, -, hnone, -⟩ := resolve_inverse_pathTo hloose (by decide) rfl
  exact ⟨_, hloose, rfl, rfl, rfl, (hinverse ⟨[0, 0]⟩ ⟨2⟩ (by decide)).mp rfl, rfl,
    (hnone ⟨3⟩ (by decide)).mp rfl⟩

/-- Without its last positions, a path leads to the ancestor of its node that is as many levels
up, and without all of them it is the path to the root. When the root has no parent, its path
climbs through all ancestors there are. -/
theorem pop_climbs_ancestors {e : Expression} (h : Reachable e) (hroom : e.size ≤ 2 ^ 32)
    {path : TreePath} {id : NodeId} (hpath : e.resolve path = .ok (some id)) :
    ∃ way, e.ancestors id = .ok way ∧ way.head? = some id ∧
      (∀ levels, levels ≤ path.length → ∃ above, way[levels]? = some above ∧
        e.resolve (path.pop levels) = .ok (some above)) ∧
      (∀ levels, path.length ≤ levels → path.pop levels = .root) ∧
      (e.parent e.root = .ok none →
        way.length = path.length + 1 ∧ way.getLast? = some e.root) := by
  have hf := h.forest hroom
  have hid := hf.index_lt_of_leads (hf.resolve_eq_some_iff.mp hpath)
  obtain ⟨way, hway⟩ := hf.grounded id
  refine ⟨way, hf.ancestors_eq hway (Expression.node?_isSome_iff.mpr hid), ?_,
    fun levels => hf.exists_resolve_pop hpath hway, fun levels => TreePath.pop_of_length_le, ?_⟩
  · obtain ⟨rest, rfl⟩ := hway.exists_cons
    rfl
  · intro hroot
    rw [Expression.parent_of_lt hf.root, Except.ok.injEq] at hroot
    -- All levels up, the path is the root's, and nothing follows the root on the way.
    obtain ⟨top, htop, hresolve⟩ := hf.exists_resolve_pop hpath hway (Nat.le_refl path.length)
    rw [TreePath.pop_of_length_le (Nat.le_refl _)] at hresolve
    cases hresolve
    have hend := hway.getElem?_succ htop
    rw [hroot, List.getElem?_eq_none_iff] at hend
    obtain ⟨hlt, -⟩ := List.getElem?_eq_some_iff.mp htop
    have hlength : way.length = path.length + 1 := by omega
    exact ⟨hlength, by rw [List.getLast?_eq_getElem?, hlength, Nat.add_sub_cancel, htop]⟩

/-- A factor of a product in a sum. -/
theorem pop_climbs_ancestors_of_product :
    ∃ way, Expression.productInSum.resolve ⟨[0, 1]⟩ = .ok (some ⟨3⟩) ∧
      Expression.productInSum.ancestors ⟨3⟩ = .ok way ∧ way = [⟨3⟩, ⟨1⟩, ⟨0⟩] ∧
      (∃ above, way[1]? = some above ∧ Expression.productInSum.resolve ⟨[0]⟩ = .ok (some above)) ∧
      way.length = 3 ∧ way.getLast? = some ⟨0⟩ := by
  have hpath : Expression.productInSum.resolve ⟨[0, 1]⟩ = .ok (some ⟨3⟩) := rfl
  obtain ⟨way, hway, -, hpop, -, hroot⟩ :=
    pop_climbs_ancestors .productInSum (by decide) hpath
  obtain ⟨hlength, hlast⟩ := hroot rfl
  exact ⟨way, hpath, hway, (Except.ok.inj hway).symm, hpop 1 (by decide), hlength, hlast⟩

end ExprTree.Reachable
