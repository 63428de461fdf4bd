import ExprTree.Proofs.Edit.Reorder
import ExprTree.Proofs.Parsing

/-!
# Reachable expressions

An expression is reachable when some run of the operations makes it: it starts with
a single node, with a text or with a part of a reachable expression, and is edited
from there on. Edits may be called with any arguments, and one that fails leaves the
expression as far as it got. An expression is a value, so that a clone of it is the
expression itself.
-/

namespace ExprTree

open Run

inductive Operation where
  | insert (content : Content)
  | addChild (parent child : NodeId)
  | swapChildren (parent first second : NodeId)
  | flatten
  | flattenBeneath (id : NodeId)
  | shift (path : TreePath) (offset : Int64)

/-- The draft after a call, be it a success or a failure. -/
def Operation.after (operation : Operation) (draft : Draft) : Draft :=
  match operation with
  | .insert content => final ((Edit.insert content : Edit Fault NodeId) draft)
  | .addChild parent child => final (Edit.addChild parent child draft)
  | .swapChildren parent first second => final (Edit.swapChildren parent first second draft)
  | .flatten => final (Edit.flatten draft)
  | .flattenBeneath id => final (Edit.flattenBeneath id draft)
  | .shift path offset => final (Edit.shift path offset draft)

inductive Reachable : Expression → Prop where
  | ofContent (content : Content) : Reachable (.ofContent content)
  | parse {text : String} {log log' : Log} {e : Expression} :
      Expression.parse text log = .ok e log' → Reachable e
  | copy {e copied : Expression} {id : NodeId} :
      Reachable e → e.copy id = .ok copied → Reachable copied
  | edit {e : Expression} (operation : Operation) (log : Log) :
      Reachable e → Reachable (operation.after ⟨e, log⟩).toExpression

namespace Operation

/-- A call keeps the root and all contents, and may add a node at the end. -/
theorem exists_holds (operation : Operation) (draft : Draft) :
    ∃ added, (operation.after draft).Holds draft.root (draft.contents ++ added) := by
  cases operation with
  | insert content =>
    exact ⟨#[content], rfl, (Edit.contents_insert content draft).trans (by simp)⟩
  | addChild parent child => exact (Edit.keeps_addChild parent child).exists_holds draft
  | swapChildren parent first second =>
    exact (Edit.keeps_swapChildren parent first second).exists_holds draft
  | flatten => exact Edit.keeps_flatten.exists_holds draft
  | flattenBeneath id => exact (Edit.keeps_flattenBeneath id).exists_holds draft
  | shift path offset => exact (Edit.keeps_shift path offset).exists_holds draft

theorem root_after (operation : Operation) (draft : Draft) :
    (operation.after draft).root = draft.root := by
  obtain ⟨added, hroot, -⟩ := operation.exists_holds draft
  exact hroot

theorem size_le (operation : Operation) (draft : Draft) :
    draft.size ≤ (operation.after draft).size := by
  obtain ⟨added, -, hcontents⟩ := operation.exists_holds draft
  rw [Expression.size_eq_size_contents, Expression.size_eq_size_contents, hcontents,
    Array.size_append]
  exact Nat.le_add_right _ _

/-- Every operation on a forest leaves a forest. -/
theorem forest (operation : Operation) {draft : Draft} (hf : draft.Forest) :
    (operation.after draft).Forest := by
  cases operation with
  | insert content => exact hf.add content
  | addChild parent child => exact Edit.forest_addChild parent child draft hf
  | swapChildren parent first second =>
    exact Edit.forest_swapChildren parent first second draft hf
  | flatten => exact Edit.forest_flatten draft hf
  | flattenBeneath id => exact Edit.forest_flattenBeneath id draft hf
  | shift path offset => exact Edit.forest_shift path offset draft hf

end Operation

theorem Expression.forest_ofContent (content : Content) : (ofContent content).Forest := by
  have hstored : (ofContent content).Stored none (.node ⟨0⟩ content []) :=
    .node rfl (fun _ => rfl) (by simp)
  apply hstored.forest (by simp) (by simp [ofContent])
  intro id node hnode
  have hindex : id.index < 1 := index_lt hnode
  have hid : id = ⟨0⟩ := NodeId.index_inj.mp (Nat.lt_one_iff.mp hindex)
  simp [hid]

theorem Expression.dense_of_ofTree {tree : Tree} {e : Expression} (h : ofTree tree = .ok e)
    (hroom : e.size ≤ 2 ^ 32) : e.Dense tree := by
  obtain ⟨e', hof, hdense⟩ := exists_ofTree (size_of_ofTree h ▸ hroom)
  obtain rfl := Except.ok.inj (h.symm.trans hof)
  exact hdense

namespace Reachable

/-- Every run of operations leads to a forest, as long as there are handles for all nodes. -/
theorem forest {e : Expression} (h : Reachable e) (hroom : e.size ≤ 2 ^ 32) : e.Forest := by
  induction h with
  | ofContent content => exact Expression.forest_ofContent content
  | parse hparse =>
    obtain ⟨tree, -, -, hdense⟩ := Expression.of_parse_eq_ok hparse hroom
    exact hdense.forest hroom
  | copy _ hcopy _ =>
    obtain ⟨tree, -, hof⟩ := Expression.copy_eq_ok_iff.mp hcopy
    exact (Expression.dense_of_ofTree hof hroom).forest hroom
  | edit operation log _ ih =>
    exact operation.forest (ih ((operation.size_le ⟨_, log⟩).trans hroom))

/-- The two kinds of links always agree, and every way up ends. Handles that are stored
are valid, no child is listed twice, literals have no children, and nothing is pending
between operations. -/
theorem links_agree {e : Expression} (h : Reachable e) (hroom : e.size ≤ 2 ^ 32) :
    e.root.index < e.size ∧
    (∀ id node, e.node id = .ok node →
      (∀ parent, node.parent = some parent → parent.index < e.size) ∧
      (∀ child ∈ node.children, child.index < e.size) ∧
      node.children.toList.Nodup ∧
      (node.content.isCompound = false → node.children = #[]) ∧
      node.pending = Pending.empty) ∧
    (∀ parent child node childNode, e.node parent = .ok node → e.node child = .ok childNode →
      (child ∈ node.children ↔ childNode.parent = some parent)) ∧
    ∀ id, id.index < e.size → ∃ way top, e.ancestors id = .ok way ∧ way.Nodup ∧
      way.getLast? = some top ∧ e.parent top = .ok none := by
  have hf := h.forest hroom
  refine ⟨hf.root, ?_, ?_, ?_⟩
  · intro id node hnode
    rw [Expression.node_ok_iff] at hnode
    have hsettled := hf.settled hnode
    refine ⟨?_, ?_, hsettled.nodup, hsettled.leaf, hsettled.pending⟩
    · intro parent hparent
      rw [← Expression.parentOf_eq hnode] at hparent
      exact Expression.node?_isSome_iff.mp (hf.exists_node?_parent hparent)
    · intro child hchild
      have hmem : child ∈ e.childrenOf id := by
        rw [Expression.childrenOf_eq hnode]
        exact hchild.val
      exact Expression.node?_isSome_iff.mp (hf.exists_node?_child hmem)
  · intro parent child node childNode hnode hchild
    rw [Expression.node_ok_iff] at hnode hchild
    have hagree : child ∈ e.childrenOf parent ↔ e.parentOf child = some parent := hf.agree
    rw [Expression.childrenOf_eq hnode, Expression.parentOf_eq hchild] at hagree
    rw [← hagree, Array.mem_toList_iff]
  · intro id hid
    obtain ⟨way, hway⟩ := hf.grounded id
    have hvalid := Expression.node?_isSome_iff.mpr hid
    obtain ⟨top, hlast, hnone⟩ := hway.exists_top
    obtain ⟨node, hnode⟩ := hf.exists_node?_of_mem_way hway hvalid (List.mem_of_getLast? hlast)
    refine ⟨way, top, hf.ancestors_eq hway hvalid, hway.nodup, hlast, ?_⟩
    rw [Expression.parent_ok hnode, ← Expression.parentOf_eq hnode, hnone]

/-- A literal that was added to a sum and attached to it. -/
theorem links_agree_of_attached :
    ∃ e, Reachable e ∧ e.size = 2 ∧ e.children ⟨0⟩ = .ok #[⟨1⟩] ∧
      ∃ way top, e.ancestors ⟨1⟩ = .ok way ∧ way.Nodup ∧ way.getLast? = some top ∧
        e.parent top = .ok none := by
  have hsum := Reachable.ofContent (.compound (.operation .add))
  have hadded := hsum.edit (.insert (.literal ⟨"x", by decide⟩)) #[]
  have hattached := hadded.edit (.addChild ⟨0⟩ ⟨1⟩) #[]
  exact ⟨_, hattached, rfl, rfl, (links_agree hattached (by decide)).2.2.2 ⟨1⟩ (by decide)⟩

end Reachable

/-! ## Expressions put together by hand -/

/-- The sum of the sum `x` and `y`. -/
def Expression.sumInSum : Expression where
  nodes := #[
    ⟨.compound (.operation .add), none, #[⟨1⟩, ⟨3⟩], Pending.empty⟩,
    ⟨.compound (.operation .add), some ⟨0⟩, #[⟨2⟩], Pending.empty⟩,
    ⟨.literal ⟨"x", by decide⟩, some ⟨1⟩, #[], Pending.empty⟩,
    ⟨.literal ⟨"y", by decide⟩, some ⟨0⟩, #[], Pending.empty⟩]
  root := ⟨0⟩

theorem Reachable.sumInSum : Reachable .sumInSum := by
  have hsum := Reachable.ofContent (.compound (.operation .add))
  have hinner :=
    (hsum.edit (.insert (.compound (.operation .add))) #[]).edit (.addChild ⟨0⟩ ⟨1⟩) #[]
  have hx := (hinner.edit (.insert (.literal ⟨"x", by decide⟩)) #[]).edit (.addChild ⟨1⟩ ⟨2⟩) #[]
  exact (hx.edit (.insert (.literal ⟨"y", by decide⟩)) #[]).edit (.addChild ⟨0⟩ ⟨3⟩) #[]

/-- The sum of the product `x*y` and `z`. -/
def Expression.productInSum : Expression where
  nodes := #[
    ⟨.compound (.operation .add), none, #[⟨1⟩, ⟨4⟩], Pending.empty⟩,
    ⟨.compound (.operation .multiply), some ⟨0⟩, #[⟨2⟩, ⟨3⟩], Pending.empty⟩,
    ⟨.literal ⟨"x", by decide⟩, some ⟨1⟩, #[], Pending.empty⟩,
    ⟨.literal ⟨"y", by decide⟩, some ⟨1⟩, #[], Pending.empty⟩,
    ⟨.literal ⟨"z", by decide⟩, some ⟨0⟩, #[], Pending.empty⟩]
  root := ⟨0⟩

theorem Reachable.productInSum : Reachable .productInSum := by
  have hsum := Reachable.ofContent (.compound (.operation .add))
  have hproduct :=
    (hsum.edit (.insert (.compound (.operation .multiply))) #[]).edit (.addChild ⟨0⟩ ⟨1⟩) #[]
  have hx := (hproduct.edit (.insert (.literal ⟨"x", by decide⟩)) #[]).edit (.addChild ⟨1⟩ ⟨2⟩) #[]
  have hy := (hx.edit (.insert (.literal ⟨"y", by decide⟩)) #[]).edit (.addChild ⟨1⟩ ⟨3⟩) #[]
  exact (hy.edit (.insert (.literal ⟨"z", by decide⟩)) #[]).edit (.addChild ⟨0⟩ ⟨4⟩) #[]

end ExprTree
