import ExprTree.Text.Alphabet

/-!
# Literals

A literal is a run of digits or a single lowercase letter. Leading zeros are
kept: a literal is its text, not a number.
-/

namespace ExprTree

/-- One or more digits. -/
def isNumber (s : List Char) : Bool :=
  !s.isEmpty && s.all Char.isDigit

/-- A single lowercase letter. -/
def isLetter : List Char → Bool
  | [c] => c.isLower
  | _ => false

structure Literal where
  text : String
  valid : (isNumber text.toList || isLetter text.toList) = true
  deriving DecidableEq

/-- The text which no literal has. -/
structure LiteralError where
  text : String
  deriving DecidableEq, Repr

def LiteralError.message (error : LiteralError) : String :=
  "`" ++ error.text ++ "` is not a valid literal"

namespace Literal

def ofChars? (s : List Char) : Option Literal :=
  if valid : (isNumber s || isLetter s) = true then
    some ⟨String.ofList s, by simpa using valid⟩
  else
    none

def ofText (text : String) : Except LiteralError Literal :=
  match ofChars? text.toList with
  | some l => .ok l
  | none => .error ⟨text⟩

theorem ofChars?_toList (literal : Literal) : ofChars? literal.text.toList = some literal := by
  simp [ofChars?, literal.valid]

theorem ofText_text (literal : Literal) : ofText literal.text = .ok literal := by
  simp [ofText, ofChars?_toList]

end Literal
end ExprTree
