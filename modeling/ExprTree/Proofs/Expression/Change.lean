import ExprTree.Proofs.Expression.Lookup

/-!
# Changes of an expression

A change is described by the nodes that it may touch and those that it detaches.
Changes made one after the other add up, unless a later one touches what an
earlier one has detached. Contents never change.
-/

namespace ExprTree

namespace Expression

structure Changed (e e' : Expression) (touched detached : List NodeId) : Prop where
  root : e'.root = e.root
  size : e'.size = e.size
  content : ∀ id, (e'.node? id).map Node.content = (e.node? id).map Node.content
  detached : ∀ id ∈ detached, ∃ content, e'.node? id = some (Node.detached content)
  frame : ∀ id, id ∉ touched → e'.node? id = e.node? id

namespace Changed

variable {e e' e'' : Expression} {touched touched' detached detached' : List NodeId}

theorem refl (e : Expression) : Changed e e [] [] :=
  ⟨rfl, rfl, fun _ => rfl, by simp, fun _ _ => rfl⟩

theorem trans (h : Changed e e' touched detached) (h' : Changed e' e'' touched' detached')
    (hapart : ∀ id ∈ detached, id ∉ touched') :
    Changed e e'' (touched ++ touched') (detached ++ detached') where
  root := h'.root.trans h.root
  size := h'.size.trans h.size
  content id := (h'.content id).trans (h.content id)
  detached := by
    intro id hid
    cases List.mem_append.mp hid with
    | inl hid =>
      obtain ⟨content, hnode⟩ := h.detached id hid
      exact ⟨content, (h'.frame id (hapart id hid)).trans hnode⟩
    | inr hid => exact h'.detached id hid
  frame := by
    intro id hid
    rw [List.mem_append, not_or] at hid
    exact (h'.frame id hid.2).trans (h.frame id hid.1)

theorem mono (h : Changed e e' touched detached) (htouched : touched ⊆ touched')
    (hdetached : detached' ⊆ detached) : Changed e e' touched' detached' where
  root := h.root
  size := h.size
  content := h.content
  detached id hid := h.detached id (hdetached hid)
  frame id hid := h.frame id fun hmem => hid (htouched hmem)

theorem of_detached (h : Changed e e' touched detached)
    (hdetached : ∀ id ∈ detached', ∃ content, e'.node? id = some (Node.detached content)) :
    Changed e e' touched detached' where
  root := h.root
  size := h.size
  content := h.content
  detached := hdetached
  frame := h.frame

theorem content_eq (h : Changed e e' touched detached) (id : NodeId) :
    e'.content id = e.content id := by
  have hcontent := h.content id
  cases hnode : e.node? id with
  | none =>
    rw [hnode] at hcontent
    rw [content_of_le (node?_eq_none_iff.mp hnode),
      content_of_le (node?_eq_none_iff.mp (Option.map_eq_none_iff.mp hcontent)), h.size]
  | some node =>
    rw [hnode] at hcontent
    obtain ⟨node', hnode', hsame⟩ := Option.map_eq_some_iff.mp hcontent
    rw [content_ok hnode, content_ok hnode', hsame]

end Changed
end Expression

/-- Writing a node changes nothing else. -/
theorem Draft.changed_modify (draft : Draft) (id : NodeId) (change : Node → Node)
    (hcontent : ∀ node, (change node).content = node.content) :
    draft.Changed (draft.modify id change).toExpression [id] [] where
  root := rfl
  size := size_modify
  content other := by
    rw [node?_modify]
    split
    · simp [Function.comp_def, hcontent]
    · rfl
  detached := by simp
  frame other hother := node?_modify_of_ne (by simpa using hother)

end ExprTree
