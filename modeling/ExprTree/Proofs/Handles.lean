import ExprTree.Proofs.NormalForm

/-!
# Handles

A node is added behind all others and its handle is its position, so that the handles of a run
count upwards, and none of them comes twice while there is one left. There are `2 ^ 32` of them,
and the count starts over behind the last one. No call removes a node, moves it to another
position or writes over what it holds. A node that was spliced away is no exception: it is out
of the tree, but its handle still leads to it.
-/

namespace ExprTree

namespace Expression

variable {e e' : Expression} {id : NodeId} {content : Content}

theorem content_eq_ok_iff : e.content id = .ok content ↔ e.contents[id.index]? = some content := by
  rw [contents, Array.getElem?_map, Option.map_eq_some_iff]
  constructor
  · intro h
    obtain ⟨node, hnode, rfl⟩ := exists_node?_of_content h
    exact ⟨node, hnode, rfl⟩
  · rintro ⟨node, hnode, rfl⟩
    exact content_ok hnode

/-- What is added at the end changes nothing in front of it. -/
theorem content_of_append {added : Array Content} (h : e'.contents = e.contents ++ added)
    (hcontent : e.content id = .ok content) : e'.content id = .ok content := by
  rw [content_eq_ok_iff] at hcontent ⊢
  obtain ⟨hlt, -⟩ := Array.getElem?_eq_some_iff.mp hcontent
  rw [h, Array.getElem?_append_left hlt, hcontent]

end Expression

namespace Operation

/-- The handle that a call gives out, if it adds a node. -/
def given? (operation : Operation) (draft : Draft) : Option NodeId :=
  match operation with
  | .insert content =>
    match (Edit.insert content : Edit Fault NodeId) draft with
    | .ok id _ => some id
    | .error _ _ => none
  | _ => none

/-- The handles that the calls of a run give out, in order. -/
def given : List Operation → Draft → List NodeId
  | [], _ => []
  | operation :: rest, draft =>
    (operation.given? draft).toList ++ given rest (operation.after draft)

variable {draft : Draft} {id : NodeId} {content : Content}

theorem given?_insert (content : Content) (draft : Draft) :
    (insert content).given? draft = some (NodeId.ofIndex draft.size) := rfl

/-- The handle of an added node is a new one exactly when there was a handle left for it. -/
theorem forall_ne_given_iff :
    (∀ other, other.index < draft.size → other ≠ NodeId.ofIndex draft.size) ↔
      draft.size < 2 ^ 32 := by
  constructor
  · intro h
    by_contra hfull
    have hindex := (NodeId.ofIndex draft.size).index_lt
    exact h _ (hindex.trans_le (Nat.le_of_not_lt hfull)) rfl
  · intro hfits other hother
    exact NodeId.ne_ofIndex hother hfits

theorem size_after_insert (content : Content) (draft : Draft) :
    ((insert content).after draft).size = draft.size + 1 :=
  Draft.size_add

theorem size_run_insert (content : Content) (count : Nat) (draft : Draft) :
    (run (List.replicate count (insert content)) draft).size = draft.size + count := by
  induction count generalizing draft with
  | zero => rfl
  | succ count ih =>
    have hrest := ih ((insert content).after draft)
    rw [size_after_insert] at hrest
    rw [List.replicate_succ]
    exact hrest.trans (by omega)

theorem content_insert (content : Content) (hfits : draft.size < 2 ^ 32) :
    ((insert content).after draft).content (NodeId.ofIndex draft.size) = .ok content :=
  Expression.content_ok (Draft.node?_add_self content hfits)

/-- A run keeps the root and all contents, and may add nodes at the end. -/
theorem exists_run_holds (operations : List Operation) (draft : Draft) :
    ∃ added, (run operations draft).Holds draft.root (draft.contents ++ added) := by
  induction operations generalizing draft with
  | nil => exact ⟨#[], rfl, by simp [run]⟩
  | cons operation rest ih =>
    obtain ⟨added, hroot, hcontents⟩ := operation.exists_holds draft
    obtain ⟨later, hroot', hcontents'⟩ := ih (operation.after draft)
    refine ⟨added ++ later, hroot'.trans hroot, ?_⟩
    rw [← Array.append_assoc, ← hcontents]
    exact hcontents'

theorem root_run (operations : List Operation) (draft : Draft) :
    (run operations draft).root = draft.root := by
  obtain ⟨added, hroot, -⟩ := exists_run_holds operations draft
  exact hroot

theorem size_le_run (operations : List Operation) (draft : Draft) :
    draft.size ≤ (run operations draft).size := by
  obtain ⟨added, -, hcontents⟩ := exists_run_holds operations draft
  rw [Expression.size_eq_size_contents, Expression.size_eq_size_contents, hcontents,
    Array.size_append]
  exact Nat.le_add_right _ _

theorem content_run (operations : List Operation) (h : draft.content id = .ok content) :
    (run operations draft).content id = .ok content := by
  obtain ⟨added, -, hcontents⟩ := exists_run_holds operations draft
  exact Expression.content_of_append hcontents h

/-- The handles that a run has given out all lead to nodes. -/
theorem index_lt_of_mem_given {operations : List Operation} (h : id ∈ given operations draft)
    (hroom : (run operations draft).size ≤ 2 ^ 32) : id.index < (run operations draft).size := by
  induction operations generalizing draft with
  | nil => cases h
  | cons operation rest ih =>
    rcases List.mem_append.mp h with hfirst | hrest
    · cases operation with
      | insert content =>
        obtain rfl := List.mem_singleton.mp hfirst
        have hsize : draft.size + 1 ≤ (run (insert content :: rest) draft).size := by
          have hrest := size_le_run rest ((insert content).after draft)
          rwa [size_after_insert] at hrest
        rw [NodeId.index_ofIndex (hsize.trans hroom)]
        exact hsize
      | _ => cases hfirst
    · exact ih hrest hroom

end Operation

namespace Reachable

/-- After any run, the next node that is added gets a handle which neither the root nor any
other node has, and which the run did not give out before, as long as there is one left. Nodes
are never taken away, and what a handle leads to at some time it leads to ever after. -/
theorem handles_stay {e : Expression} (h : Reachable e) (log : Log)
    (earlier later : List Operation) {draft : Draft}
    (hrun : Operation.run earlier ⟨e, log⟩ = draft) :
    (∀ content, draft.size < 2 ^ 32 → ∃ id,
      (Operation.insert content).given? draft = some id ∧ id ≠ draft.root ∧
        id ∉ Operation.given earlier ⟨e, log⟩ ∧
        (∀ other, other.index < draft.size → other ≠ id) ∧
        (Operation.run (.insert content :: later) draft).content id = .ok content) ∧
    draft.size ≤ (Operation.run later draft).size ∧
    ∀ id content, draft.content id = .ok content →
      (Operation.run later draft).content id = .ok content := by
  subst hrun
  refine ⟨?_, Operation.size_le_run later _, fun id content => Operation.content_run later⟩
  intro content hfits
  have hsize := Operation.size_le_run earlier ⟨e, log⟩
  have hvalid : e.root.index < e.size := (h.forest (hsize.trans hfits.le)).root
  have hnew := Operation.forall_ne_given_iff.mpr hfits
  refine ⟨_, Operation.given?_insert content _, ?_, ?_, hnew,
    Operation.content_run later (Operation.content_insert content hfits)⟩
  · rw [Operation.root_run]
    exact (hnew _ (hvalid.trans_le hsize)).symm
  · intro hgiven
    exact hnew _ (Operation.index_lt_of_mem_given hgiven hfits.le) rfl

/-- A sum is spliced away and keeps its handle. The literal that is added afterwards gets
another one. -/
theorem handles_stay_of_sum :
    ∃ draft id, draft = Operation.run [.flatten] ⟨.sumInSum, #[]⟩ ∧
      draft.parent ⟨1⟩ = .ok none ∧ draft.children ⟨0⟩ = .ok #[⟨3⟩, ⟨2⟩] ∧
      draft.content ⟨1⟩ = .ok (.compound (.operation .add)) ∧
      (Operation.insert (.literal ⟨"z", by decide⟩)).given? draft = some id ∧ id ≠ ⟨1⟩ ∧
      (Operation.run [.insert (.literal ⟨"z", by decide⟩), .addChild ⟨0⟩ id, .flatten]
        draft).content id = .ok (.literal ⟨"z", by decide⟩) := by
  obtain ⟨hadded, -, -⟩ := handles_stay .sumInSum #[] [.flatten] [.addChild ⟨0⟩ ⟨4⟩, .flatten] rfl
  obtain ⟨id, hgiven, -, -, hnew, hcontent⟩ := hadded (.literal ⟨"z", by decide⟩) (by decide)
  obtain rfl : ⟨4⟩ = id := Option.some.inj hgiven
  exact ⟨_, _, rfl, rfl, rfl, rfl, hgiven, (hnew ⟨1⟩ (by decide)).symm, hcontent⟩

/-- A sum to which `2 ^ 32 - 1` literals were added has a node for every handle. The next literal
that is added gets the handle of the root, which goes on to lead to the sum. -/
theorem root_handle_given_again :
    ∃ added draft, added = Operation.insert (.literal ⟨"x", by decide⟩) ∧
      draft = Operation.run (List.replicate (2 ^ 32 - 1) added)
        ⟨.ofContent (.compound (.operation .add)), #[]⟩ ∧
      Reachable (.ofContent (.compound (.operation .add))) ∧
      added.given? draft = some draft.root ∧
      (Operation.run [added] draft).content draft.root = .ok (.compound (.operation .add)) := by
  refine ⟨_, _, rfl, rfl, .ofContent _, ?_, ?_⟩
  · rw [Operation.given?_insert, Operation.size_run_insert, Operation.root_run]
    rfl
  · rw [Operation.root_run]
    exact Operation.content_run _ (Operation.content_run _ rfl)

end Reachable
end ExprTree
