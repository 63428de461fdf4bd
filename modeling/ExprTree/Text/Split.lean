import ExprTree.Content
import ExprTree.Fault

/-!
# Where to split a text

A text is split at its shallowest operators, and among those at the `+` if there
are any. The depth of a position is the number of parentheses opened before it
less the number closed, which is negative behind a closing parenthesis without a
partner. A single pass finds the operator and every place where it stands at that
depth.
-/

namespace ExprTree

/-- An operator with the positions, in increasing order, at which it splits a text. -/
structure Split where
  operator : Operator
  positions : List Nat
  deriving DecidableEq, Repr

namespace Split

/-- What is known at a position: the best operator before it, with its depth, and
where it was found. -/
structure Scan where
  position : Nat
  depth : Int
  best : Option (Int × Operator)
  found : Array Nat

namespace Scan

def start : Scan :=
  ⟨0, 0, none, #[]⟩

/-- Whether an operator at this depth is a better place to split than the best so far. -/
def improves (scan : Scan) (operator : Operator) : Bool :=
  match scan.best with
  | none => true
  | some (depth, best) =>
    scan.depth < depth || (operator == .add && scan.depth == depth && best == .multiply)

def see (scan : Scan) (operator : Operator) : Scan :=
  if scan.improves operator then
    { scan with best := some (scan.depth, operator), found := #[scan.position] }
  else if scan.best = some (scan.depth, operator) then
    { scan with found := scan.found.push scan.position }
  else
    scan

def advance (scan : Scan) : Scan :=
  { scan with position := scan.position + 1 }

def step (scan : Scan) (c : Char) : Scan :=
  match c with
  | '(' => { scan with depth := scan.depth + 1 }.advance
  | ')' => { scan with depth := scan.depth - 1 }.advance
  | '+' => (scan.see .add).advance
  | '*' => (scan.see .multiply).advance
  | _ => scan.advance

end Scan

/-- The shallowest operator of `s`, `+` before `*`, unless there is none. -/
def shallowest? (s : List Char) : Option Split :=
  let scan := s.foldl Scan.step Scan.start
  scan.best.map fun (_, operator) => ⟨operator, scan.found.toList⟩

/-- Cuts the text `rest`, which begins at the position `start`, at each of the given positions.
The character at a cut is left out. -/
def cut (operands : Array (List Char)) (start : Nat) (rest : List Char) :
    List Nat → Except Fault (Array (List Char))
  | [] => .ok (operands.push rest)
  | position :: positions =>
    if position < start then
      .error .rangeOutOfBounds
    else
      match rest.splitAt (position - start) with
      | (operand, _ :: rest) => cut (operands.push operand) (position + 1) rest positions
      | (_, []) => .error .rangeOutOfBounds

/-- What stands before, between and after the positions. -/
def operands (split : Split) (s : List Char) : Except Fault (List (List Char)) :=
  Array.toList <$> cut #[] 0 s split.positions

end Split

/-- The characters from the position `start` up to, but not including, `stop`. -/
def fragment (s : List Char) (start stop : Nat) : Except Fault (List Char) :=
  if start ≤ stop ∧ stop ≤ s.length then
    .ok ((s.take stop).drop start)
  else
    .error .rangeOutOfBounds

end ExprTree
