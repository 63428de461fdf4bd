import ExprTree.Edit.Basic
import ExprTree.Expression.Navigation

/-!
# Shifting a node among its siblings

A shift exchanges the node at a path with the sibling some places before or after
it. The path belongs to the caller and follows the node, but only after the exchange
is made.
-/

namespace ExprTree

/-- A draft, and the path to the node that its user looks at. -/
structure Focused extends Draft where
  path : TreePath

namespace Edit

/-- The answer of a look-up, which has to be there. -/
def found : Option α → Edit EditError α
  | some a => pure a
  | none => throw .notAChild

/-- Exchanges the node at `path` with the sibling `offset` places further on. -/
def exchangeAt (path : TreePath) (offset : Int64) : Edit EditError Unit := do
  let node ← found (← read (·.resolve path))
  let parent ← found (← read (·.parent node))
  let position ← found path.last?
  let target ← found (offsetPosition? position offset)
  let sibling ← found (← read (·.children parent))[target.toNat]?
  emit (.shifting node position target)
  swapChildren parent node sibling

/-- An edit does not see the path. -/
def onDraft (edit : Edit ε α) : EStateM ε Focused α := fun focused =>
  match edit focused.toDraft with
  | .ok a draft => .ok a { focused with toDraft := draft }
  | .error error draft => .error error { focused with toDraft := draft }

def offsetPath (offset : Int64) : EStateM EditError Focused Unit := do
  match (← get).path.offset offset with
  | .ok path => modify ({ · with path })
  | .error fault => throw (.fault fault)

/-- Shifts the node that is looked at by `offset` places, and then the path after it. -/
def shiftFocused (offset : Int64) : EStateM EditError Focused Unit := do
  onDraft (exchangeAt (← get).path offset)
  offsetPath offset

/-- Shifts the node at `path` by `offset` places and gives its new path. -/
def shift (path : TreePath) (offset : Int64) : Edit EditError TreePath := fun draft =>
  match shiftFocused offset ⟨draft, path⟩ with
  | .ok () focused => .ok focused.path focused.toDraft
  | .error error focused => .error error focused.toDraft

theorem shiftFocused_eq (path : TreePath) (offset : Int64) (draft : Draft) :
    shiftFocused offset ⟨draft, path⟩ =
      match exchangeAt path offset draft with
      | .ok _ draft =>
        match path.offset offset with
        | .ok path' => .ok () ⟨draft, path'⟩
        | .error fault => .error (.fault fault) ⟨draft, path⟩
      | .error error draft => .error error ⟨draft, path⟩ := by
  change (onDraft (exchangeAt path offset) >>= fun _ => offsetPath offset) ⟨draft, path⟩ = _
  simp only [bind, EStateM.bind, onDraft]
  cases exchangeAt path offset draft with
  | error error draft => rfl
  | ok _ draft =>
    change (match path.offset offset with
      | .ok path => modify ({ · with path })
      | .error fault => throw (.fault fault) : EStateM EditError Focused Unit) ⟨draft, path⟩ = _
    cases path.offset offset <;> rfl

end Edit
end ExprTree
