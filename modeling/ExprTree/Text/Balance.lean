/-!
# Pairing of parentheses

`isBalanced` counts the open parentheses from left to right and refuses a closing
one that has no partner. `isWrapped` asks for more: the opening parenthesis at
the start has its partner at the very end, so that `(a)+(b)` is balanced but not
wrapped. It stops at that partner, hence an unbalanced text is never wrapped.
-/

namespace ExprTree

/-- Whether `s` closes every parenthesis it opens, and `depth` further ones. -/
def balancesFrom : Nat → List Char → Bool
  | depth, [] => depth == 0
  | depth, '(' :: s => balancesFrom (depth + 1) s
  | 0, ')' :: _ => false
  | depth + 1, ')' :: s => balancesFrom depth s
  | depth, _ :: s => balancesFrom depth s

def isBalanced (s : List Char) : Bool :=
  balancesFrom 0 s

/-- Whether the last of `depth` open parentheses is closed by the last character. -/
def closesAtEnd : Nat → List Char → Bool
  | _, [] => false
  | depth, '(' :: s => closesAtEnd (depth + 1) s
  | depth, ')' :: s => if depth - 1 = 0 then s.isEmpty else closesAtEnd (depth - 1) s
  | depth, _ :: s => closesAtEnd depth s

/-- Whether the first character opens a parenthesis which the last one closes. -/
def isWrapped : List Char → Bool
  | '(' :: s => closesAtEnd 1 s
  | _ => false

end ExprTree
