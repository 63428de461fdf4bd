import ExprTree.Edit.Basic

/-!
# Flattening

A sum directly beneath a sum says nothing that one sum would not say, and so with
products. Flattening moves the children of the inner node up to the end of the
children of the outer one and detaches the inner node.

The subtree is visited from the leaves upwards. What a visit finds is queued with
the outer node and applied when all of its children have been visited, so that
the list which is being visited does not change underway.
-/

namespace ExprTree.Edit

/-- Applies the changes queued with `id`: first the additions, then the removals. -/
def commit (id : NodeId) : Edit Fault Unit := do
  let pending := (← read (·.node id)).pending
  update id fun node => { node with pending := Pending.empty }
  pending.additions.toList.forM fun added => do
    update added fun node => { node with parent := some id }
    update id fun node => { node with children := node.children.push added }
  pending.removals.toList.forM fun removed => do
    update id fun node => { node with children := node.children.filter (· != removed) }
    update removed fun node => { node with parent := none, children := #[] }

/-- Queues the children of `id` with its parent, if the parent absorbs `id`. -/
def stage (id : NodeId) : Edit Fault Unit := do
  let node ← read (·.node id)
  if let some parent := node.parent then
    if (← read (·.content parent)).absorbs node.content then
      emit (.splicing node.children.size id parent)
      update parent fun outer =>
        { outer with
          pending := ⟨outer.pending.additions ++ node.children, outer.pending.removals.push id⟩ }

/-- Flattens beneath `id`, if there are at most the given number of levels. -/
def flattenWithin : Nat → NodeId → Edit Fault Unit
  | 0, _ => throw .tooDeep
  | levels + 1, id => do
    (← read (·.children id)).toList.forM fun child => do
      flattenWithin levels child
      stage child
    commit id

/-- Flattens everything beneath `id`, which itself stays in place. -/
def flattenBeneath (id : NodeId) : Edit Fault Unit := do
  flattenWithin (← get).depthBound id

def flatten : Edit Fault Unit := do
  flattenBeneath (← get).root

end ExprTree.Edit
