import ExprTree.Proofs.Expression.Reordered
import ExprTree.Proofs.Flattening
import ExprTree.Proofs.RoundTrip

/-!
# Rearranging what was read

What is read from a text has a canonical tree. As long as no node is attached, the tree
remains canonical: children change their order, flattening finds nothing to do, and nodes
that are added stay apart from it. So the expression can be written and read again at any
time, and has the literals of the first text, in some order.
-/

namespace ExprTree

open Run

open scoped List

namespace Expression

/-- The tree of the expression is canonical and has these literals, in any order. Its top has
no parent, so that it is not a part of any other tree. -/
structure Legible (e : Expression) (literals : List Literal) : Prop where
  forest : e.Forest
  tree : ∃ t, e.Stored none t ∧ t.id = e.root ∧ t.tree.Canonical ∧ t.tree.literals ~ literals

theorem Dense.legible {e : Expression} {tree : Tree} (h : e.Dense tree) (hroom : e.size ≤ 2 ^ 32)
    (hcanonical : tree.Canonical) {literals : List Literal} (hliterals : tree.literals ~ literals) :
    e.Legible literals := by
  refine ⟨h.forest hroom, tree.number 0, h.stored, h.id_number_eq, ?_⟩
  rw [Tree.tree_number]
  exact ⟨hcanonical, hliterals⟩

/-- A tree cannot have more nodes than there are handles. -/
theorem Forest.size_tree_le {e : Expression} (hf : e.Forest) {parent : Option NodeId} {t : Subtree}
    (h : e.Stored parent t) : t.tree.size ≤ 2 ^ 32 :=
  t.size_tree_le.trans (NodeId.length_le_of_nodup (hf.nodup_ids h))

namespace Legible

variable {e : Expression} {literals : List Literal}

/-- Copying the root gives another expression with the same tree. -/
theorem copy (h : e.Legible literals) {copied : Expression} (hcopy : e.copy e.root = .ok copied) :
    copied.Legible literals := by
  obtain ⟨t, hstored, hid, hcanonical, hliterals⟩ := h.tree
  obtain ⟨tree, htree, hof⟩ := copy_eq_ok_iff.mp hcopy
  rw [← hid, h.forest.tree_eq hstored, Except.ok.injEq] at htree
  obtain rfl := htree
  have hroom : copied.size ≤ 2 ^ 32 := size_of_ofTree hof ▸ h.forest.size_tree_le hstored
  exact (dense_of_ofTree hof hroom).legible hroom hcanonical hliterals

/-- Writing the tree and reading the text gives the tree again. -/
theorem exists_parse (h : e.Legible literals) :
    ∃ tree, e.tree e.root = .ok tree ∧ tree.literals ~ literals ∧
      ∀ log, ∃ e' log', parse tree.inline log = .ok e' log' ∧ e'.tree e'.root = .ok tree := by
  obtain ⟨t, hstored, hid, hcanonical, hliterals⟩ := h.tree
  have hroom := h.forest.size_tree_le hstored
  refine ⟨t.tree, hid ▸ h.forest.tree_eq hstored, hliterals, fun log => ?_⟩
  obtain ⟨e', -, hdense, hparse⟩ := Expression.exists_parse hcanonical.readAs_inline hroom log
  exact ⟨e', _, hparse, hdense.tree_eq (hdense.size ▸ hroom)⟩

end Legible
end Expression

/-! ## Edits of a legible expression -/

theorem Draft.permuted_arrange {draft : Draft} {parent : NodeId} {node : Node}
    (hnode : draft.node? parent = some node) {children : Array NodeId}
    (hperm : children.toList ~ node.children.toList) :
    draft.Permuted (draft.arrange parent children).toExpression := by
  intro id other hother
  by_cases hid : id = parent
  · subst hid
    obtain rfl := Option.some.inj (hnode.symm.trans hother)
    refine ⟨children, ?_, hperm⟩
    rw [arrange, node?_modify_self, hnode]
    rfl
  · refine ⟨other.children, ?_, .refl _⟩
    rw [arrange, node?_modify_of_ne hid, hother]

namespace Edit

variable {draft : Draft} {literals : List Literal}

/-- A node that is added is none of those that the tree is made of. -/
theorem legible_add (h : draft.Legible literals) (content : Content) :
    (draft.add content).Legible literals := by
  obtain ⟨t, hstored, htree⟩ := h.tree
  refine ⟨h.forest.add content, t, hstored.congr fun id hid => ?_, htree⟩
  obtain ⟨above, part, hpart, rfl, -⟩ := hstored.exists_of_mem hid
  exact Draft.node?_add_of_lt (Expression.index_lt hpart.node?_eq)

theorem legible_arrange (h : draft.Legible literals) {parent : NodeId} {node : Node}
    (hnode : draft.node? parent = some node) {children : Array NodeId}
    (hperm : children.toList ~ node.children.toList) :
    (draft.arrange parent children).Legible literals := by
  obtain ⟨t, hstored, hid, hcanonical, hliterals⟩ := h.tree
  obtain ⟨t', hstored', hreordered⟩ :=
    hstored.exists_reordered (Draft.permuted_arrange hnode hperm)
  exact ⟨h.forest.arrange hnode hperm, t', hstored', hreordered.id_eq.trans hid,
    hreordered.canonical hcanonical, hreordered.literals_perm.trans hliterals⟩

theorem legible_swapChildren (parent first second : NodeId) :
    Preserves (·.Legible literals) (swapChildren parent first second) :=
  .swapChildren (fun hnode hperm h => legible_arrange h hnode hperm) parent first second

/-- A canonical tree is flat already, wherever the flattening starts. -/
theorem legible_flattenBeneath (id : NodeId) :
    Preserves (·.Legible literals) (flattenBeneath id) := by
  intro draft h
  obtain ⟨-, hsame⟩ | ⟨parent, s, rfl, hs, hflat, hf'⟩ := final_flattenBeneath h.forest id
  · rwa [hsame]
  · obtain ⟨t, hstored, hroot, hcanonical, hliterals⟩ := h.tree
    have hstored' := hflat.stored_flatAt_of_top hs hstored
    rw [(isFlat_of_canonical hstored hcanonical).flatAt_eq] at hstored'
    exact ⟨hf', t, hstored', hroot.trans hflat.changed.root.symm, hcanonical, hliterals⟩

end Edit

namespace Operation

/-- Whether the call may attach a node to another one. -/
def attaches : Operation → Bool
  | .addChild _ _ => true
  | _ => false

theorem legible (operation : Operation) (hattaches : operation.attaches = false) {draft : Draft}
    {literals : List Literal} (h : draft.Legible literals) :
    (operation.after draft).Legible literals := by
  cases operation with
  | insert content => exact Edit.legible_add h content
  | addChild parent child => cases hattaches
  | swapChildren parent first second => exact Edit.legible_swapChildren parent first second draft h
  | flatten => exact Edit.legible_flattenBeneath draft.root draft h
  | flattenBeneath id => exact Edit.legible_flattenBeneath id draft h
  | shift path offset => exact Edit.Preserves.shift Edit.legible_swapChildren path offset draft h

end Operation

/-! ## Runs that attach no node -/

/-- What a run without attaching makes of an expression, which may be replaced by the copy of
its root on the way. Calls may fail. -/
inductive Rearranged (start : Expression) : Expression → Prop where
  | refl : Rearranged start start
  | copy {e copied : Expression} :
      Rearranged start e → e.copy e.root = .ok copied → Rearranged start copied
  | edit {e : Expression} (operation : Operation) (log : Log) :
      Rearranged start e → operation.attaches = false →
      Rearranged start (operation.after ⟨e, log⟩).toExpression

namespace Rearranged

variable {start e : Expression}

theorem legible (h : Rearranged start e) {literals : List Literal}
    (hstart : start.Legible literals) : e.Legible literals := by
  induction h with
  | refl => exact hstart
  | copy _ hcopy ih => exact ih.copy hcopy
  | edit operation log _ hattaches ih => exact operation.legible hattaches ih

/-- However an expression that was read is rearranged, its inline form is accepted, the
outline is that of what is read from it, and the literals are those that were first read. -/
theorem reads_back {text : String} (hlength : text.length ≤ 2 ^ 32) {log log' : Log}
    (hparse : Expression.parse text log = .ok start log') (h : Rearranged start e) :
    ∃ written outline before after, e.inline e.root = .ok written ∧
      e.outline e.root 0 = .ok outline ∧ start.literals start.root = .ok before ∧
      e.literals e.root = .ok after ∧ after ~ before ∧
      ∀ log, ∃ reparsed log', Expression.parse written log = .ok reparsed log' ∧
        reparsed.outline reparsed.root 0 = .ok outline := by
  have hroom : start.size ≤ 2 ^ 32 := (Expression.size_le_of_parse hparse).trans hlength
  obtain ⟨first, hreads, -, hdense⟩ := Expression.of_parse_eq_ok hparse hroom
  have hlegible := h.legible (hdense.legible hroom hreads.canonical (.refl _))
  obtain ⟨tree, htree, hperm, hagain⟩ := hlegible.exists_parse
  refine ⟨tree.inline, tree.outline 0, first.literals, tree.literals, Expression.inline_ok htree,
    Expression.outline_ok htree 0, Expression.literals_ok (hdense.tree_eq hroom),
    Expression.literals_ok htree, hperm, fun log => ?_⟩
  obtain ⟨reparsed, log', hparse', htree'⟩ := hagain log
  exact ⟨reparsed, log', hparse', Expression.outline_ok htree' 0⟩

/-- A sum whose operands change places. -/
theorem reads_back_of_sum :
    ∃ start log' e, Expression.parse "1+x" #[] = .ok start log' ∧ Rearranged start e ∧
      e.inline e.root = .ok "x+1" ∧ ∀ log, ∃ reparsed log',
        Expression.parse "x+1" log = .ok reparsed log' ∧
        reparsed.outline reparsed.root 0 = .ok "+\n\tx\n\t1\n" := by
  have hreads : ReadAs "1+x".toList (.compound (.operation .add)
      [.literal ⟨"1", by decide⟩, .literal ⟨"x", by decide⟩]) :=
    ⟨List.all_eq_true.mp rfl, .operation (by decide) (by simp [Tree.content, Operator.admits])
      (by simp [Tree.Canonical.literal]), rfl⟩
  obtain ⟨start, hof, -, hparse⟩ := Expression.exists_parse hreads (by decide) #[]
  have hrun := (Rearranged.refl : Rearranged start start).edit
    (.swapChildren ⟨0⟩ ⟨1⟩ ⟨2⟩) #[] rfl
  have hstart : Except.ok ⟨#[⟨.compound (.operation .add), none, #[⟨1⟩, ⟨2⟩], Pending.empty⟩,
      ⟨.literal ⟨"1", by decide⟩, some ⟨0⟩, #[], Pending.empty⟩,
      ⟨.literal ⟨"x", by decide⟩, some ⟨0⟩, #[], Pending.empty⟩], ⟨0⟩⟩ = Except.ok start := hof
  obtain rfl := Except.ok.inj hstart
  obtain ⟨written, outline, -, -, hwritten, houtline, -, -, -, hagain⟩ :=
    reads_back (by decide) hparse hrun
  have hwritten' : (.ok "x+1" : Except Fault String) = .ok written := by
    rw [← hwritten]
    decide +kernel
  have houtline' : (.ok "+\n\tx\n\t1\n" : Except Fault String) = .ok outline := by
    rw [← houtline]
    decide +kernel
  obtain rfl := Except.ok.inj hwritten'
  obtain rfl := Except.ok.inj houtline'
  exact ⟨_, _, _, hparse, hrun, hwritten, hagain⟩

end Rearranged
end ExprTree
