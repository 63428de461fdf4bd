import ExprTree.Content
import ExprTree.Fault

/-!
# Expressions

An expression keeps its nodes in an array and refers to them by handles, which
are positions in it. A node knows its children, in order, and its parent; the two
say the same thing in both directions. A node without a parent is the root of a
tree of its own, and one of these roots is the root of the expression. Nodes are
never removed from the array, so a handle keeps its meaning for good.
-/

namespace ExprTree

/-- A handle is a 32-bit word. It means nothing outside of the expression that gave it out. -/
structure NodeId where
  value : UInt32
  deriving DecidableEq, Repr

namespace NodeId

/-- The position of the node in its expression. -/
def index (id : NodeId) : Nat :=
  id.value.toNat

/-- The handle of the node at a position. -/
def ofIndex (index : Nat) : NodeId :=
  ⟨UInt32.ofNat index⟩

theorem index_inj {a b : NodeId} : a.index = b.index ↔ a = b := by
  cases a
  cases b
  simp [index, UInt32.toNat_inj]

end NodeId

/-- Changes to the children of a node which wait until all of them have been visited. -/
structure Pending where
  additions : Array NodeId
  removals : Array NodeId
  deriving DecidableEq, Repr

def Pending.empty : Pending :=
  ⟨#[], #[]⟩

structure Node where
  content : Content
  parent : Option NodeId
  children : Array NodeId
  pending : Pending
  deriving DecidableEq

/-- A node on its own, with neither parent nor children. -/
def Node.detached (content : Content) : Node :=
  ⟨content, none, #[], Pending.empty⟩

structure Expression where
  nodes : Array Node
  root : NodeId
  deriving DecidableEq

namespace Expression

/-- No nodes at all: the start of a construction, not yet an expression with a root. -/
def empty : Expression :=
  ⟨#[], ⟨0⟩⟩

/-- An expression of a single node. -/
def ofContent (content : Content) : Expression :=
  ⟨#[Node.detached content], ⟨0⟩⟩

def size (e : Expression) : Nat :=
  e.nodes.size

/-! ## Looking at a node -/

def node (e : Expression) (id : NodeId) : Except Fault Node :=
  match e.nodes[id.index]? with
  | some node => .ok node
  | none => .error (.indexOutOfBounds e.size id.index)

def content (e : Expression) (id : NodeId) : Except Fault Content :=
  Node.content <$> e.node id

def parent (e : Expression) (id : NodeId) : Except Fault (Option NodeId) :=
  Node.parent <$> e.node id

def children (e : Expression) (id : NodeId) : Except Fault (Array NodeId) :=
  Node.children <$> e.node id

theorem node_eq_ok_iff {e : Expression} {id : NodeId} {node : Node} :
    e.node id = .ok node ↔ e.nodes[id.index]? = some node := by
  unfold Expression.node
  split <;> simp_all

theorem node_of_size_le {e : Expression} {id : NodeId} (h : e.size ≤ id.index) :
    e.node id = .error (.indexOutOfBounds e.size id.index) := by
  unfold Expression.node
  rw [Array.getElem?_eq_none h]

/-! ## Walking upwards -/

/-- The next `steps` nodes of the way from `id` to its root, provided that the way ends there. -/
def ancestorsWithin (e : Expression) : Nat → NodeId → Except Fault (List NodeId)
  | 0, _ => .error .tooDeep
  | steps + 1, id => do
    match ← e.parent id with
    | none => pure [id]
    | some parent => pure (id :: (← e.ancestorsWithin steps parent))

/-- A way upwards without repetition has at most as many nodes as the expression. -/
def depthBound (e : Expression) : Nat :=
  e.size + 1

/-- The node itself, then its parent, and so on up to a node without a parent. -/
def ancestors (e : Expression) (id : NodeId) : Except Fault (List NodeId) :=
  e.ancestorsWithin e.depthBound id

end Expression
end ExprTree
