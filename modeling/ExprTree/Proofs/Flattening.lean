import ExprTree.Proofs.Edit.Confluence
import ExprTree.Proofs.Reachable

/-!
# Flattening of reachable expressions

Flattening an expression is a refinement of the rewriting of trees: the tree beneath a
node becomes its flat form. Runs beneath different nodes may follow each other in either
order, and a run beneath a node makes every later run beneath it, or beneath a node that
was below, an idle one.
-/

namespace ExprTree

namespace Edit

variable {draft : Draft} {id : NodeId}

theorem tree_flattenBeneath (hf : draft.Forest) (hid : id.index < draft.size) :
    ∃ tree draft', draft.tree id = .ok tree ∧ flattenBeneath id draft = .ok () draft' ∧
      draft'.tree id = .ok tree.flat ∧ draft'.root = draft.root := by
  obtain ⟨t, rfl, hstored, -, htree⟩ := hf.exists_tree (Expression.node?_isSome_iff.mpr hid)
  obtain ⟨draft', hrun, hflat, hf'⟩ := flattenBeneath_of_stored hf hstored
  exact ⟨t.tree, draft', htree, hrun, hflat.tree_eq hf', hflat.changed.root⟩

/-- A node and a node beneath it: flattening beneath both, in either order, leaves what
flattening beneath the upper one leaves. -/
theorem flattenBeneath_absorbs (hf : draft.Forest) (hroom : draft.size ≤ 2 ^ 32)
    {parent : Option NodeId} {t part : Subtree} (ht : draft.Stored parent t)
    (hpart : part.PartOf t) :
    ∃ whole below last, flattenBeneath t.id draft = .ok () whole ∧
      flattenBeneath part.id whole = .ok () whole ∧
      flattenBeneath part.id draft = .ok () below ∧ flattenBeneath t.id below = .ok () last ∧
      last.toExpression = whole.toExpression := by
  obtain ⟨whole, hrun, hflat, hf'⟩ := flattenBeneath_of_stored hf ht
  have hagain := hflat.flattenBeneath_eq hf' (hflat.changed.size ▸ hroom) hpart
  obtain ⟨below, last, hbelow, hlast, heq⟩ := flattenBeneath_of_partOf hf hroom ht hpart hflat
  exact ⟨whole, below, last, hrun, hagain, hbelow, hlast, heq⟩

end Edit

namespace Reachable

/-- The tree beneath a node is rewritten to its flat form, and so is the whole tree. -/
theorem flatten_refines_tree {e : Expression} (h : Reachable e) (hroom : e.size ≤ 2 ^ 32)
    (log : Log) :
    (∀ id, id.index < e.size → ∃ tree draft, e.tree id = .ok tree ∧
      Edit.flattenBeneath id ⟨e, log⟩ = .ok () draft ∧ draft.tree id = .ok tree.flat) ∧
    ∃ tree draft, e.tree e.root = .ok tree ∧ Edit.flatten ⟨e, log⟩ = .ok () draft ∧
      draft.tree draft.root = .ok tree.flat := by
  have hf : (Draft.mk e log).Forest := h.forest hroom
  constructor
  · intro id hid
    obtain ⟨tree, draft, htree, hrun, hflat, -⟩ := Edit.tree_flattenBeneath hf hid
    exact ⟨tree, draft, htree, hrun, hflat⟩
  · obtain ⟨tree, draft, htree, hrun, hflat, hroot⟩ := Edit.tree_flattenBeneath hf hf.root
    exact ⟨tree, draft, htree, hrun, hroot ▸ hflat⟩

theorem exists_sum_in_sum :
    ∃ e, Reachable e ∧ e.size = 4 ∧ e.root = ⟨0⟩ ∧ e.parent ⟨0⟩ = .ok none ∧
      e.ancestors ⟨1⟩ = .ok [⟨1⟩, ⟨0⟩] ∧
      e.tree ⟨0⟩ = .ok (.compound (.operation .add) [.compound (.operation .add)
        [.literal ⟨"x", by decide⟩], .literal ⟨"y", by decide⟩]) :=
  ⟨_, sumInSum, rfl, rfl, rfl, rfl, rfl⟩

/-- The operands of the inner sum move to the end. -/
theorem flatten_refines_tree_of_sum :
    ∃ e draft, Reachable e ∧ e.size = 4 ∧ e.inline e.root = .ok "x+y" ∧
      Edit.flatten ⟨e, #[]⟩ = .ok () draft ∧ draft.inline draft.root = .ok "y+x" := by
  obtain ⟨e, he, hsize, hroot, -, -, htree⟩ := exists_sum_in_sum
  obtain ⟨tree, draft, htree', hrun, hflat⟩ := (flatten_refines_tree he (by omega) #[]).2
  rw [hroot, htree] at htree'
  obtain rfl := Except.ok.inj htree'
  refine ⟨e, draft, he, hsize, hroot ▸ Expression.inline_ok htree, hrun, ?_⟩
  rw [Expression.inline_ok hflat]
  simp only [Tree.flat_compound, Tree.flat_literal, List.map_cons, List.map_nil]
  rfl

/-! ## The order of runs -/

/-- Runs beneath two nodes leave the same nodes in either order, those included that they
detach. If the second node is the first one or lies beneath it, they leave what a single run
beneath the first one leaves. Flattening all a second time changes nothing. -/
theorem flatten_confluent {e : Expression} (h : Reachable e) (hroom : e.size ≤ 2 ^ 32) (log : Log) :
    (∀ a b, a.index < e.size → b.index < e.size →
      ∃ afterA afterB afterAB afterBA way, Edit.flattenBeneath a ⟨e, log⟩ = .ok () afterA ∧
        Edit.flattenBeneath b ⟨e, log⟩ = .ok () afterB ∧
        Edit.flattenBeneath b afterA = .ok () afterAB ∧
        Edit.flattenBeneath a afterB = .ok () afterBA ∧
        afterAB.toExpression = afterBA.toExpression ∧ e.ancestors b = .ok way ∧
        (a ∈ way → afterAB.toExpression = afterA.toExpression)) ∧
    ∃ draft, Edit.flatten ⟨e, log⟩ = .ok () draft ∧ Edit.flatten draft = .ok () draft := by
  have hf : (Draft.mk e log).Forest := h.forest hroom
  constructor
  · intro a b ha hb
    obtain ⟨s, rfl, hs⟩ := hf.exists_stored (Expression.node?_isSome_iff.mpr ha)
    obtain ⟨t, rfl, ht⟩ := hf.exists_stored (Expression.node?_isSome_iff.mpr hb)
    obtain ⟨way, hway⟩ := hf.grounded t.id
    have hancestors := hf.ancestors_eq hway (Expression.node?_isSome_iff.mpr hb)
    by_cases hbelow : t.id ∈ s.ids
    · obtain ⟨whole, below, last, hwhole, hagain, hpart, hlast, heq⟩ :=
        Edit.flattenBeneath_absorbs hf hroom hs (ht.partOf_of_mem hs hbelow)
      exact ⟨whole, below, whole, last, way, hwhole, hpart, hagain, hlast, heq.symm, hancestors,
        fun _ => rfl⟩
    · have hnot : s.id ∉ way := mt (hf.mem_ids_iff hs hway).mpr hbelow
      by_cases habove : s.id ∈ t.ids
      · obtain ⟨whole, below, last, hwhole, hagain, hpart, hlast, heq⟩ :=
          Edit.flattenBeneath_absorbs hf hroom ht (hs.partOf_of_mem ht habove)
        exact ⟨below, whole, last, whole, way, hpart, hwhole, hlast, hagain, heq, hancestors,
          fun hmem => absurd hmem hnot⟩
      · have hdisjoint : ∀ id ∈ s.ids, id ∉ t.ids := fun id hid hid' =>
          (hs.mem_or_mem ht hid hid').elim habove hbelow
        obtain ⟨first, hfirst, hflat₁, hf₁⟩ := Edit.flattenBeneath_of_stored hf hs
        obtain ⟨second, hsecond, hflat₂, hf₂⟩ := Edit.flattenBeneath_of_stored hf ht
        obtain ⟨last₁, last₂, hrun₁, hrun₂, heq⟩ := Edit.flattenBeneath_comm_of_disjoint hroom
          hs ht hdisjoint hflat₁ hf₁ hflat₂ hf₂
        exact ⟨first, second, last₁, last₂, way, hfirst, hsecond, hrun₁, hrun₂, heq, hancestors,
          fun hmem => absurd hmem hnot⟩
  · obtain ⟨t, hid, ht⟩ := hf.exists_stored (Expression.node?_isSome_iff.mpr hf.root)
    obtain ⟨draft, hrun, hflat, hf'⟩ := Edit.flattenBeneath_of_stored hf ht
    have hagain := hflat.flattenBeneath_eq hf' (hflat.changed.size ▸ hroom) .refl
    have hroot : draft.root = t.id := hflat.changed.root.trans hid.symm
    rw [hid] at hrun
    rw [← hroot] at hagain
    exact ⟨draft, hrun, hagain⟩

/-- The run beneath the outer sum splices the inner sum away, on which the other run is called. -/
theorem flatten_confluent_of_sum :
    ∃ outer inner both both', Reachable .sumInSum ∧
      Expression.sumInSum.children ⟨0⟩ = .ok #[⟨1⟩, ⟨3⟩] ∧
      Edit.flattenBeneath ⟨0⟩ ⟨.sumInSum, #[]⟩ = .ok () outer ∧
      Edit.flattenBeneath ⟨1⟩ ⟨.sumInSum, #[]⟩ = .ok () inner ∧
      Edit.flattenBeneath ⟨1⟩ outer = .ok () both ∧ Edit.flattenBeneath ⟨0⟩ inner = .ok () both' ∧
      both.toExpression = both'.toExpression ∧ both.toExpression = outer.toExpression ∧
      outer.children ⟨0⟩ = .ok #[⟨3⟩, ⟨2⟩] ∧
      outer.node ⟨1⟩ = .ok (Node.detached (.compound (.operation .add))) := by
  obtain ⟨outer, inner, both, both', way, houter, hinner, hboth, hboth', heq, hway, habsorbed⟩ :=
    (flatten_confluent sumInSum (by decide) #[]).1 ⟨0⟩ ⟨1⟩ (by decide) (by decide)
  obtain rfl : [⟨1⟩, ⟨0⟩] = way := Except.ok.inj hway
  have hspliced := houter
  cases hspliced
  exact ⟨_, inner, both, both', sumInSum, rfl, houter, hinner, hboth, hboth', heq,
    habsorbed (by decide), rfl, rfl⟩

end Reachable
end ExprTree
