import ExprTree.Proofs.Edit.Copy
import ExprTree.Proofs.Layout
import ExprTree.Proofs.Reachable

/-!
# Copies

A copy holds the tree beneath a node and nothing else. Whatever the expression went through
before, be it that nodes were left detached or come in another order, the copy keeps its nodes
in the order of a walk, and copying it once more changes nothing.
-/

namespace ExprTree

namespace Expression

variable {e : Expression} {parent : Option NodeId} {t : Subtree}

/-- Copying node by node plants the tree that is stored there. -/
theorem Stored.exists_copyByNodes (h : e.Stored parent t) (hnodup : t.ids.Nodup)
    (hroom : e.size ≤ 2 ^ 32) : ∃ copied, e.copyByNodes t.id = .ok copied ∧ copied.Dense t.tree := by
  have hbound := h.length_ids_le hnodup
  have hsize := t.size_tree_le
  have hstart : (⟨ofContent t.content, #[]⟩ : Draft) = Draft.add ⟨empty, #[]⟩ t.tree.content := by
    rw [t.content_tree]
    rfl
  have hone : (ofContent t.content).size = 1 := rfl
  rw [t.tree.size_eq] at hsize
  obtain ⟨draft, hrun, -, hplanted⟩ := Edit.copies_of_stored h (h.height_le hnodup)
    ⟨ofContent t.content, #[]⟩ ⟨0⟩ (Node.detached t.content) (forest_ofContent t.content) rfl rfl
    (by rw [hone]; omega)
  refine ⟨draft.toExpression, ?_, ?_⟩
  · rw [copyByNodes, content_ok h.node?_eq]
    change Edit.built
      (Edit.copyBeneath e e.depthBound t.id ⟨0⟩ ⟨ofContent t.content, #[]⟩) = _
    rw [hrun]
    rfl
  · have hroot : draft.root = NodeId.ofIndex 0 := hplanted.root
    rw [hstart, ← t.content_tree] at hplanted
    have hdense := dense_of_planted (hplanted.planted (by decide))
    rw [← hroot] at hdense
    exact hdense

/-- Whether the tree is read first or copied node by node makes no difference. -/
theorem Stored.exists_copy (h : e.Stored parent t) (hnodup : t.ids.Nodup) (hroom : e.size ≤ 2 ^ 32) :
    ∃ copied, e.copy t.id = .ok copied ∧ e.copyByNodes t.id = .ok copied ∧
      copied.Dense t.tree ∧ copied.size ≤ 2 ^ 32 := by
  have hsize : t.tree.size ≤ 2 ^ 32 :=
    (t.size_tree_le.trans (h.length_ids_le hnodup)).trans hroom
  obtain ⟨copied, hof, hdense⟩ := exists_ofTree hsize
  obtain ⟨copied', hcopied', hdense'⟩ := h.exists_copyByNodes hnodup hroom
  have hroom' : copied.size ≤ 2 ^ 32 := hdense.size.trans_le hsize
  obtain rfl := hdense.unique hdense' hroom'
  exact ⟨copied', copy_eq_ok_iff.mpr ⟨_, h.tree_eq hnodup, hof⟩, hcopied', hdense, hroom'⟩

/-- A copy of its own root leaves an expression as it is, if it consists of one tree only. -/
theorem Dense.copy_root {tree : Tree} (h : e.Dense tree) (hroom : e.size ≤ 2 ^ 32) :
    e.copy e.root = .ok e ∧ e.copyByNodes e.root = .ok e := by
  obtain ⟨copied, hcopy, hcopyByNodes, hdense, -⟩ :=
    h.stored.exists_copy (h.nodup_ids hroom) hroom
  rw [Tree.tree_number] at hdense
  obtain rfl := h.unique hdense hroom
  rw [h.id_number_eq] at hcopy hcopyByNodes
  exact ⟨hcopy, hcopyByNodes⟩

/-- A compact copy of what is beneath `id`: a forest that is laid out from its root on, with a
node for each one that a walk from `id` visits, and with the same tree. -/
structure CompactCopy (e : Expression) (id : NodeId) (copied : Expression) : Prop where
  root : copied.root.index = 0
  top : copied.parent copied.root = .ok none
  forest : copied.Forest
  laidOut : copied.LaidOut
  size : ∃ order, e.walk id = .ok order ∧ order.Nodup ∧ copied.size = order.length
  tree : ∃ tree, e.tree id = .ok tree ∧ copied.tree copied.root = .ok tree
  inline : ∃ text, e.inline id = .ok text ∧ copied.inline copied.root = .ok text
  literals : ∃ literals, e.literals id = .ok literals ∧ copied.literals copied.root = .ok literals
  outline : ∀ indent, ∃ text, e.outline id indent = .ok text ∧
    copied.outline copied.root indent = .ok text

theorem Stored.compactCopy {copied : Expression} (h : e.Stored parent t) (hnodup : t.ids.Nodup)
    (hdense : copied.Dense t.tree) (hroom : copied.size ≤ 2 ^ 32) : e.CompactCopy t.id copied where
  root := (hdense.laidOut hroom).root
  top := ((hdense.laidOut hroom).top _ (hdense.forest hroom).root).mpr rfl
  forest := hdense.forest hroom
  laidOut := hdense.laidOut hroom
  size := ⟨t.ids, h.walk_eq hnodup, hnodup, hdense.size.trans h.length_ids.symm⟩
  tree := ⟨_, h.tree_eq hnodup, hdense.tree_eq hroom⟩
  inline := ⟨_, inline_ok (h.tree_eq hnodup), inline_ok (hdense.tree_eq hroom)⟩
  literals := ⟨_, literals_ok (h.tree_eq hnodup), literals_ok (hdense.tree_eq hroom)⟩
  outline indent :=
    ⟨_, outline_ok (h.tree_eq hnodup) indent, outline_ok (hdense.tree_eq hroom) indent⟩

end Expression

namespace Reachable

/-- Copying never fails, node by node or otherwise. It gives a compact copy, which is its own
copy. -/
theorem copy_compacts {e : Expression} (h : Reachable e) (hroom : e.size ≤ 2 ^ 32) {id : NodeId}
    (hid : id.index < e.size) :
    ∃ copied, e.copy id = .ok copied ∧ e.copyByNodes id = .ok copied ∧ e.CompactCopy id copied ∧
      copied.copy copied.root = .ok copied ∧ copied.copyByNodes copied.root = .ok copied := by
  obtain ⟨t, rfl, hstored, hnodup, -⟩ :=
    (h.forest hroom).exists_tree (Expression.node?_isSome_iff.mpr hid)
  obtain ⟨copied, hcopy, hcopyByNodes, hdense, hroom'⟩ := hstored.exists_copy hnodup hroom
  exact ⟨copied, hcopy, hcopyByNodes, hstored.compactCopy hnodup hdense hroom',
    hdense.copy_root hroom'⟩

/-- A node that was left detached is not copied, and the one behind it takes its place. -/
theorem copy_compacts_past_detached :
    ∃ e copied, Reachable e ∧ e.size = 3 ∧ e.inline ⟨0⟩ = .ok "x" ∧ e.copy ⟨0⟩ = .ok copied ∧
      e.CompactCopy ⟨0⟩ copied ∧ copied.size = 2 ∧ copied.children ⟨0⟩ = .ok #[⟨1⟩] := by
  have hsum := Reachable.ofContent (.compound (.operation .add))
  have hdetached := hsum.edit (.insert (.literal ⟨"y", by decide⟩)) #[]
  have hadded := hdetached.edit (.insert (.literal ⟨"x", by decide⟩)) #[]
  have hattached := hadded.edit (.addChild ⟨0⟩ ⟨2⟩) #[]
  have hid : NodeId.index ⟨0⟩ < 3 := by decide
  obtain ⟨copied, hcopy, -, hcompact, -⟩ := copy_compacts hattached (by decide) hid
  have hcopied := hcopy
  cases hcopied
  exact ⟨_, _, hattached, rfl, rfl, hcopy, hcompact, rfl, rfl⟩

end Reachable
end ExprTree
