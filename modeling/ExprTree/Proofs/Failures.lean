import ExprTree.Proofs.Edit.Shift
import ExprTree.Proofs.Reachable

/-!
# Failing calls

On a reachable expression an operation ends with a fault exactly when its caller misused it,
and a call that fails, for whatever reason, leaves everything as it was.
-/

namespace ExprTree

namespace Run

/-- The error that a run ends with, if it fails. -/
def failure? {ε σ α : Type} : EStateM.Result ε σ α → Option ε
  | .ok _ _ => none
  | .error error _ => some error

end Run

open Run

namespace Operation

/-- How a call fails, if it does. -/
def failure? (operation : Operation) (draft : Draft) : Option EditError :=
  match operation with
  | .insert content => Run.failure? ((Edit.insert content : Edit EditError NodeId) draft)
  | .addChild parent child => (Run.failure? (Edit.addChild parent child draft)).map .fault
  | .swapChildren parent first second => Run.failure? (Edit.swapChildren parent first second draft)
  | .flatten => (Run.failure? (Edit.flatten draft)).map .fault
  | .flattenBeneath id => (Run.failure? (Edit.flattenBeneath id draft)).map .fault
  | .shift path offset => Run.failure? (Edit.shift path offset draft)

/-- Whether the call asks for something that makes no sense on the expression. -/
def Misused (e : Expression) : Operation → Prop
  | .insert _ => False
  | .addChild parent child =>
    e.size ≤ parent.index ∨ (∃ l, e.content parent = .ok (.literal l)) ∨
      (∃ way, e.ancestors parent = .ok way ∧ child ∈ way) ∨ e.size ≤ child.index
  | .swapChildren parent _ _ => e.size ≤ parent.index
  | .flatten => False
  | .flattenBeneath id => e.size ≤ id.index
  | .shift _ _ => False

/-- Whether the call looks for a child that is not there. -/
def Misses (e : Expression) : Operation → Prop
  | .swapChildren parent first second =>
    parent.index < e.size ∧ (first ∉ e.childrenOf parent ∨ second ∉ e.childrenOf parent)
  | .shift path offset =>
    ∀ id parent sibling position target, ¬ e.Shiftable path offset id parent sibling position target
  | _ => False

theorem not_misses_of_misused {e : Expression} {operation : Operation}
    (h : operation.Misused e) : ¬ operation.Misses e := by
  cases operation with
  | swapChildren parent first second => exact fun hmisses => Nat.not_le_of_lt hmisses.1 h
  | shift path offset => exact h.elim
  | insert content => exact id
  | addChild parent child => exact id
  | flatten => exact id
  | flattenBeneath node => exact id

end Operation

/-- The path of the caller after a shift, be it a success or a failure. -/
def Edit.pathAfter (path : TreePath) (offset : Int64) (draft : Draft) : TreePath :=
  (final (shiftFocused offset ⟨draft, path⟩)).path

theorem Expression.Forest.not_attachable_iff {e : Expression} (hf : e.Forest)
    {parent child : NodeId} :
    ¬ e.Attachable parent child ↔ (Operation.addChild parent child).Misused e := by
  constructor
  · intro h
    by_cases hparent : parent.index < e.size
    · obtain ⟨node, hnode⟩ := node?_isSome_iff.mpr hparent
      obtain ⟨way, hway⟩ := hf.grounded parent
      have hancestors := hf.ancestors_eq hway ⟨node, hnode⟩
      have hcontent := content_ok hnode
      cases hkind : node.content with
      | literal l => exact .inr (.inl ⟨l, hkind ▸ hcontent⟩)
      | compound kind =>
        by_cases hfree : child ∈ way
        · exact .inr (.inr (.inl ⟨way, hancestors, hfree⟩))
        · refine .inr (.inr (.inr (Nat.le_of_not_lt fun hchild => ?_)))
          exact h ⟨⟨kind, hkind ▸ hcontent⟩, ⟨way, hancestors, hfree⟩, hchild⟩
    · exact .inl (Nat.le_of_not_lt hparent)
  · rintro hmisused ⟨⟨kind, hkind⟩, ⟨way, hway, hfree⟩, hchild⟩
    obtain ⟨node, hnode, -⟩ := exists_node?_of_content hkind
    rcases hmisused with hparent | ⟨l, hliteral⟩ | ⟨way', hway', hmem⟩ | hchild'
    · exact absurd (index_lt hnode) (Nat.not_lt_of_le hparent)
    · cases hkind.symm.trans hliteral
    · obtain rfl := Except.ok.inj (hway.symm.trans hway')
      exact hfree hmem
    · exact absurd hchild (Nat.not_lt_of_le hchild')

namespace Operation

variable {draft : Draft}

/-- A call either succeeds, or fails with a fault because of its misuse, or does not find a
child; and it leaves the draft as it was unless it succeeds. -/
inductive Outcome (operation : Operation) (draft : Draft) : Prop where
  | success : operation.failure? draft = none → ¬ operation.Misused draft.toExpression →
      ¬ operation.Misses draft.toExpression → Outcome operation draft
  | fault (fault : Fault) : operation.failure? draft = some (.fault fault) →
      operation.Misused draft.toExpression → operation.after draft = draft → Outcome operation draft
  | notAChild : operation.failure? draft = some .notAChild →
      operation.Misses draft.toExpression → operation.after draft = draft → Outcome operation draft

theorem outcome_addChild (hf : draft.Forest) (parent child : NodeId) :
    (addChild parent child).Outcome draft := by
  by_cases h : draft.Attachable parent child
  · obtain ⟨hrun, -⟩ := Edit.addChild_of_attachable hf h
    exact .success (by rw [failure?, hrun]; rfl) (fun hmisused =>
      hf.not_attachable_iff.mpr hmisused h) id
  · obtain ⟨fault, herror⟩ := Edit.addChild_of_not_attachable hf h
    exact .fault fault (by rw [failure?, herror]; rfl) (hf.not_attachable_iff.mp h)
      (by rw [after, herror]; rfl)

theorem outcome_swapChildren (parent first second : NodeId) :
    (swapChildren parent first second).Outcome draft := by
  by_cases hparent : parent.index < draft.size
  · by_cases hmembers : first ∈ draft.childrenOf parent ∧ second ∈ draft.childrenOf parent
    · obtain ⟨children, hrun⟩ := Edit.exists_swapChildren hmembers.1 hmembers.2
      exact .success (by rw [failure?, hrun]; rfl) (Nat.not_le_of_lt hparent)
        fun hmisses => not_and_or.mpr hmisses.2 hmembers
    · have hrun := Edit.swapChildren_of_not_mem hparent (not_and_or.mp hmembers)
      exact .notAChild (by rw [failure?, hrun]; rfl) ⟨hparent, not_and_or.mp hmembers⟩
        (by rw [after, hrun]; rfl)
  · have hrun : Edit.swapChildren parent first second draft = _ :=
      Edit.swapChildren_of_le (Nat.le_of_not_lt hparent)
    exact .fault _ (by rw [failure?, hrun]; rfl) (Nat.le_of_not_lt hparent)
      (by rw [after, hrun]; rfl)

theorem outcome_flattenBeneath (hf : draft.Forest) (id : NodeId) :
    (flattenBeneath id).Outcome draft := by
  by_cases hid : id.index < draft.size
  · obtain ⟨t, draft', -, -, hrun, -⟩ :=
      Edit.flattenBeneath_of_forest hf (Expression.node?_isSome_iff.mpr hid)
    exact .success (by rw [failure?, hrun]; rfl) (Nat.not_le_of_lt hid) not_false
  · have hrun := Edit.flattenBeneath_of_le (Nat.le_of_not_lt hid)
    exact .fault _ (by rw [failure?, hrun]; rfl) (Nat.le_of_not_lt hid) (by rw [after, hrun]; rfl)

theorem outcome_shift (hf : draft.Forest) (path : TreePath) (offset : Int64) :
    (shift path offset).Outcome draft := by
  by_cases h : ∃ id parent sibling position target,
      draft.Shiftable path offset id parent sibling position target
  · obtain ⟨id, parent, sibling, position, target, h⟩ := h
    obtain ⟨outer, -, hrun⟩ := Edit.shift_of_shiftable hf h
    exact .success (by rw [failure?, hrun]; rfl) not_false
      fun hmisses => hmisses id parent sibling position target h
  · simp only [not_exists] at h
    have hrun := Edit.shift_of_not_shiftable hf h
    exact .notAChild (by rw [failure?, hrun]; rfl) h (by rw [after, hrun]; rfl)

/-- In a forest nothing else can happen. -/
theorem outcome (operation : Operation) (hf : draft.Forest) : operation.Outcome draft := by
  cases operation with
  | insert content => exact .success rfl not_false not_false
  | addChild parent child => exact outcome_addChild hf parent child
  | swapChildren parent first second => exact outcome_swapChildren parent first second
  | flatten =>
    obtain ⟨t, draft', -, -, hrun, -⟩ :=
      Edit.flattenBeneath_of_forest hf (Expression.node?_isSome_iff.mpr hf.root)
    have hrun : Edit.flatten draft = .ok () draft' := hrun
    exact .success (by rw [failure?, hrun]; rfl) not_false not_false
  | flattenBeneath id => exact outcome_flattenBeneath hf id
  | shift path offset => exact outcome_shift hf path offset

namespace Outcome

variable {operation : Operation}

theorem fault_iff (h : operation.Outcome draft) :
    (∃ fault, operation.failure? draft = some (.fault fault)) ↔
      operation.Misused draft.toExpression := by
  cases h with
  | success hrun hused hfound => simp [hrun, hused]
  | fault fault hrun hmisused hsame => simp [hrun, hmisused]
  | notAChild hrun hmisses hsame =>
    have hused : ¬ operation.Misused draft.toExpression := fun hmisused =>
      not_misses_of_misused hmisused hmisses
    simp [hrun, hused]

theorem notAChild_iff (h : operation.Outcome draft) :
    operation.failure? draft = some .notAChild ↔ operation.Misses draft.toExpression := by
  cases h with
  | success hrun hused hfound => simp [hrun, hfound]
  | fault fault hrun hmisused hsame => simp [hrun, not_misses_of_misused hmisused]
  | notAChild hrun hmisses hsame => simp [hrun, hmisses]

theorem unchanged (h : operation.Outcome draft) (hfails : operation.failure? draft ≠ none) :
    operation.after draft = draft := by
  cases h with
  | success hrun hused hfound => exact absurd hrun hfails
  | fault fault hrun hmisused hsame => exact hsame
  | notAChild hrun hmisses hsame => exact hsame

end Outcome
end Operation

/-- A handle out of range is nobody's child. -/
theorem Expression.Forest.not_mem_childrenOf_of_le {e : Expression} (hf : e.Forest)
    {parent child : NodeId} (h : e.size ≤ child.index) : child ∉ e.childrenOf parent := by
  intro hmem
  exact absurd (node?_isSome_iff.mp (hf.exists_node?_child hmem)) (Nat.not_lt_of_le h)

namespace Reachable

/-- A call faults exactly when it is a misuse, which an exchange with handles out of range is
not, and finds no child exactly when there is none. If it fails, in either way, nothing has
changed: neither a node, nor the root, nor the records, nor the path given to a shift. -/
theorem faults_iff_misused {e : Expression} (h : Reachable e) (hroom : e.size ≤ 2 ^ 32) (log : Log) :
    (∀ operation : Operation,
      ((∃ fault, operation.failure? ⟨e, log⟩ = some (.fault fault)) ↔ operation.Misused e) ∧
      (operation.failure? ⟨e, log⟩ = some .notAChild ↔ operation.Misses e) ∧
      (operation.failure? ⟨e, log⟩ ≠ none → operation.after ⟨e, log⟩ = ⟨e, log⟩)) ∧
    (∀ parent first second, parent.index < e.size →
      e.size ≤ first.index ∨ e.size ≤ second.index →
      (Operation.swapChildren parent first second).failure? ⟨e, log⟩ = some .notAChild) ∧
    ∀ path offset, (Operation.shift path offset).failure? ⟨e, log⟩ ≠ none →
      Edit.pathAfter path offset ⟨e, log⟩ = path := by
  have hf : (Draft.mk e log).Forest := h.forest hroom
  refine ⟨fun operation => ?_, ?_, ?_⟩
  · have houtcome := operation.outcome hf
    exact ⟨houtcome.fault_iff, houtcome.notAChild_iff, houtcome.unchanged⟩
  · intro parent first second hparent hout
    refine (Operation.outcome _ hf).notAChild_iff.mpr ⟨hparent, ?_⟩
    exact hout.imp hf.not_mem_childrenOf_of_le hf.not_mem_childrenOf_of_le
  · intro path offset hfails
    rw [Edit.pathAfter, Edit.shiftFocused_of_not_shiftable hf, final_error]
    intro id parent sibling position target hshiftable
    obtain ⟨outer, -, hrun⟩ := Edit.shift_of_shiftable hf hshiftable
    exact hfails (by rw [Operation.failure?, hrun]; rfl)

/-- A sum with a literal. Attaching beneath the literal and attaching the sum beneath itself
are misuses, and a literal that does not exist cannot change places. -/
theorem faults_iff_misused_of_attached :
    ∃ e, Reachable e ∧ e.size = 2 ∧
      (∃ fault, (Operation.addChild ⟨1⟩ ⟨0⟩).failure? ⟨e, #[]⟩ = some (.fault fault)) ∧
      (∃ fault, (Operation.addChild ⟨0⟩ ⟨0⟩).failure? ⟨e, #[]⟩ = some (.fault fault)) ∧
      (∃ fault, (Operation.flattenBeneath ⟨2⟩).failure? ⟨e, #[]⟩ = some (.fault fault)) ∧
      (Operation.swapChildren ⟨0⟩ ⟨1⟩ ⟨2⟩).failure? ⟨e, #[]⟩ = some .notAChild ∧
      (Operation.swapChildren ⟨0⟩ ⟨1⟩ ⟨2⟩).after ⟨e, #[]⟩ = ⟨e, #[]⟩ := by
  have hsum := Reachable.ofContent (.compound (.operation .add))
  have hadded := hsum.edit (.insert (.literal ⟨"x", by decide⟩)) #[]
  have hattached := hadded.edit (.addChild ⟨0⟩ ⟨1⟩) #[]
  obtain ⟨hcalls, hexchange, -⟩ := faults_iff_misused hattached (by decide) #[]
  have hmissing := hexchange ⟨0⟩ ⟨1⟩ ⟨2⟩ (by decide) (.inr (by decide))
  refine ⟨_, hattached, rfl, (hcalls _).1.mpr (.inr (.inl ⟨_, rfl⟩)),
    (hcalls _).1.mpr (.inr (.inr (.inl ⟨_, rfl, by decide⟩))), (hcalls _).1.mpr ?_, hmissing,
    (hcalls _).2.2 (by rw [hmissing]; exact Option.some_ne_none _)⟩
  exact (by decide : 2 ≤ 2)

end Reachable

end ExprTree
