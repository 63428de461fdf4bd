import ExprTree.Edit.Flatten
import ExprTree.Edit.Plant
import ExprTree.ParseError
import ExprTree.Text.Balance
import ExprTree.Text.Split

/-!
# Reading expressions

From the lowest to the highest precedence, the grammar is

    E := A | X
    A := A+M | M
    M := M*M | X
    X := (E) | L
    L := [0-9]+ | [a-z]

A text is read from the outside inwards: a literal stands for itself, wrapping
parentheses are taken off, and everything else is split at its shallowest
operator. A chain such as `a+b+c` is split at all of its operators at once, so
the recursion is only as deep as the text is nested.
-/

namespace ExprTree

namespace Traced

instance : MonadLift (Traced Fault) (Traced ParseFailure) where
  monadLift := EStateM.adaptExcept ParseFailure.fault

instance : MonadLift (Traced ParseError) (Traced ParseFailure) where
  monadLift := EStateM.adaptExcept ParseFailure.rejected

end Traced

namespace Tree

/-- The tree of a fragment without blanks, if the recursion is at most `depth` calls deep. -/
def parseWithin : Nat → List Char → Traced ParseFailure Tree
  | 0, _ => throw (.fault .tooDeep)
  | depth + 1, s =>
    if !s.any isLiteralChar then
      throw (.rejected (.noLiteral (String.ofList s)))
    else
      match Literal.ofChars? s with
      | some l => pure (.literal l)
      | none =>
        if isWrapped s then do
          let inner ← parseWithin depth (← fragment s 1 (s.length - 1))
          return .compound .parentheses [inner]
        else
          match Split.shallowest? s with
          | none => throw (.rejected (.noOperator (String.ofList s)))
          | some split => do
            let operands ← split.operands s
            Traced.emit (.splitting (String.ofList s) operands.length split.operator)
            let children ← operands.mapM (parseWithin depth)
            return .compound (.operation split.operator) children

/-- The tree of a text without blanks. Each call is on a shorter text than the one before. -/
def parse (s : List Char) : Traced ParseFailure Tree :=
  parseWithin (s.length + 1) s

end Tree

/-- The text without its blanks, if its characters and parentheses are in order. -/
def checkText (text : List Char) : Except ParseError (List Char) :=
  match firstForeign? text with
  | some (character, position) => .error (.unexpectedCharacter character position)
  | none =>
    let s := withoutBlanks text
    if isBalanced s then
      .ok s
    else
      .error (.unbalancedParentheses (String.ofList s))

/-- Reads a text as a flattened expression. -/
def Expression.parse (text : String) : Traced ParseFailure Expression := do
  let s ← checkText text.toList
  let tree ← Tree.parse s
  let planted ← Expression.ofTree tree
  let e ← Edit.flatten.perform planted
  Traced.emit (.parsed (String.ofList s) (← e.outline e.root 0))
  return e

end ExprTree
