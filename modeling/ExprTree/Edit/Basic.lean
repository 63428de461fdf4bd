import ExprTree.Log

/-!
# Edits

An edit works on a draft, which is an expression together with the records of the
work. It may fail, and then leaves the draft as far as it got. On a well-formed
expression that is where it started, since an edit looks at everything that its
caller could have got wrong before it writes.
-/

namespace ExprTree

structure Draft extends Expression where
  log : Log

/-- Why an edit fails: a node is not among the children where it was looked for, or
the edit makes no sense on this expression. -/
inductive EditError where
  | notAChild
  | fault (fault : Fault)
  deriving DecidableEq, Repr

def EditError.message : EditError → String
  | .notAChild => "node is not a child of the target node"
  | .fault f => f.message

abbrev Edit (ε : Type) := EStateM ε Draft

namespace Edit

instance : MonadLift (Except ε) (Edit ε) where
  monadLift := ofExcept

instance : MonadLift (Edit Fault) (Edit EditError) where
  monadLift := EStateM.adaptExcept EditError.fault

/-- Looks something up in the expression. -/
def read (look : Expression → Except Fault α) : Edit Fault α := do
  ofExcept (look (← get).toExpression)

def emit (record : Record) : Edit ε Unit :=
  modify fun draft => { draft with log := draft.log.push record }

/-- Changes one node, which has to be there. -/
def update (id : NodeId) (change : Node → Node) : Edit Fault Unit := do
  let size := (← get).size
  if id.index < size then
    modify fun draft => { draft with nodes := draft.nodes.modify id.index change }
  else
    throw (.indexOutOfBounds size id.index)

/-- Adds a detached node and gives its handle, the next one in order. -/
def insert (content : Content) : Edit ε NodeId := do
  let id := NodeId.ofIndex (← get).size
  modify fun draft => { draft with nodes := draft.nodes.push (Node.detached content) }
  return id

theorem read_eq (look : Expression → Except Fault α) (draft : Draft) :
    read look draft =
      match look draft.toExpression with
      | .ok a => .ok a draft
      | .error fault => .error fault draft := by
  change (ofExcept (look draft.toExpression) : Edit Fault α) draft = _
  cases look draft.toExpression <;> rfl

theorem update_of_lt {id : NodeId} {draft : Draft} (change : Node → Node)
    (h : id.index < draft.size) :
    update id change draft = .ok () { draft with nodes := draft.nodes.modify id.index change } := by
  unfold update
  change (if id.index < draft.size then (_ : Edit Fault Unit) else _) draft = _
  rw [if_pos h]
  rfl

theorem update_of_le {id : NodeId} {draft : Draft} (change : Node → Node)
    (h : draft.size ≤ id.index) :
    update id change draft = .error (.indexOutOfBounds draft.size id.index) draft := by
  unfold update
  change (if id.index < draft.size then (_ : Edit Fault Unit) else _) draft = _
  rw [if_neg (Nat.not_lt.mpr h)]
  rfl

theorem insert_eq (content : Content) (draft : Draft) :
    (insert content : Edit ε NodeId) draft =
      .ok (NodeId.ofIndex draft.size)
        { draft with nodes := draft.nodes.push (Node.detached content) } := rfl

/-- Makes `child` the last child of `parent`, taking it away from the parent it had. -/
def addChild (parent child : NodeId) : Edit Fault Unit := do
  unless (← read (·.content parent)).isCompound do
    throw .childOfLiteral
  if (← read (·.ancestors parent)).contains child then
    throw .beneathItself
  if let some former ← read (·.parent child) then
    update former fun node => { node with children := node.children.filter (· != child) }
  update parent fun node => { node with children := node.children.push child }
  update child fun node => { node with parent := some parent }

/-- Exchanges the places of two children of `parent`. -/
def swapChildren (parent first second : NodeId) : Edit EditError Unit := do
  let children ← read (·.children parent)
  match children.finIdxOf? first, children.finIdxOf? second with
  | some i, some j => update parent fun node => { node with children := children.swap i j }
  | _, _ => throw .notAChild

/-- Runs an edit on an expression among the records of a larger computation. -/
def perform (edit : Edit ε Unit) (e : Expression) : Traced ε Expression := fun log =>
  match edit ⟨e, log⟩ with
  | .ok _ draft => .ok draft.toExpression draft.log
  | .error error draft => .error error draft.log

end Edit
end ExprTree
