import ExprTree.Text.Blank

/-!
# The alphabet of expressions

An expression is written with digits, lowercase letters, the two operators and
parentheses. Blank characters may stand anywhere between them and carry no
meaning: two digits with a blank in between are one number.
-/

namespace ExprTree

/-- Digits and lowercase letters, the characters which literals are made of. -/
def isLiteralChar (c : Char) : Bool :=
  c.isDigit || c.isLower

def isAllowed (c : Char) : Bool :=
  isBlank c || isLiteralChar c || c == '+' || c == '*' || c == '(' || c == ')'

/-- The first character outside of the alphabet, with its position. -/
def firstForeign? (text : List Char) : Option (Char × Nat) :=
  text.zipIdx.find? fun (c, _) => !isAllowed c

/-- The text without its blank characters. -/
def withoutBlanks (text : List Char) : List Char :=
  text.filter (!isBlank ·)

end ExprTree
