import ExprTree.Expression.Basic

/-!
# Records of the work

Reading a text and rearranging a tree leave records behind, in the order in
which things happen. `Traced` is a computation that keeps them, also when it ends
with a failure.
-/

namespace ExprTree

inductive Level where
  | trace
  | debug
  deriving DecidableEq, Repr

def Level.name : Level → String
  | .trace => "TRACE"
  | .debug => "DEBUG"

inductive Record where
  /-- A fragment is about to be cut at an operator. -/
  | splitting (fragment : String) (operands : Nat) (operator : Operator)
  /-- The children of `node` are to move up into its parent. -/
  | splicing (children : Nat) (node parent : NodeId)
  /-- A node is about to change places with a sibling. -/
  | shifting (node : NodeId) (source target : UInt64)
  /-- A text has become an expression with this outline. -/
  | parsed (text outline : String)
  deriving DecidableEq, Repr

def NodeId.label (id : NodeId) : String :=
  "NodeId(" ++ toString id.index ++ ")"

namespace Record

def level : Record → Level
  | .parsed _ _ => .debug
  | _ => .trace

def message : Record → String
  | .splitting fragment operands operator =>
    "splitting `" ++ fragment ++ "` into " ++ toString operands ++ " operands of " ++ operator.name
  | .splicing children node parent =>
    "splicing " ++ toString children ++ " children of " ++ node.label ++ " into " ++ parent.label
  | .shifting node source target =>
    "shifting " ++ node.label ++ " from " ++ toString source.toNat ++ " to " ++ toString target.toNat
  | .parsed text outline => "parsed `" ++ text ++ "`:\n" ++ outline

def line (record : Record) : String :=
  record.level.name ++ " " ++ record.message

end Record

abbrev Log := Array Record

/-- A computation which may fail with an `ε` and keeps its records either way. -/
abbrev Traced (ε : Type) := EStateM ε Log

namespace Traced

instance : MonadLift (Except ε) (Traced ε) where
  monadLift := ofExcept

def emit (record : Record) : Traced ε Unit :=
  modify (·.push record)

end Traced

end ExprTree
