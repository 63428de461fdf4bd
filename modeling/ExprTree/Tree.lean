import ExprTree.Content

/-!
# Trees and their written forms

`Tree` is an expression as a value, without identities for its nodes. It has two
written forms. The inline form is what a user would type, `2*x+(3+y)`. The
outline has a line for each node, indented by one tab for each level.

The writers append to the text so far, which keeps them fast on long chains;
`Tree.inline`, `Tree.lines` and `Tree.literals` start from nothing. The equations
below say what they give for a tree in terms of its children, and nothing else
needs to unfold the writers.
-/

namespace ExprTree

inductive Tree where
  | literal (literal : Literal)
  | compound (kind : Compound) (children : List Tree)

namespace Tree

def content : Tree → Content
  | .literal l => .literal l
  | .compound kind _ => .compound kind

def children : Tree → List Tree
  | .literal _ => []
  | .compound _ children => children

/-! ## Inline form -/

mutual

def writeInline (out : String) : Tree → String
  | .literal l => out ++ l.text
  | .compound .parentheses children => (writeJoined "" (out ++ "(") children) ++ ")"
  | .compound (.operation operator) children =>
    writeJoined operator.symbol.toString out children

/-- Writes the trees one after the other, with `separator` between neighbours. -/
def writeJoined (separator : String) (out : String) : List Tree → String
  | [] => out
  | [tree] => writeInline out tree
  | tree :: next :: rest => writeJoined separator (writeInline out tree ++ separator) (next :: rest)

end

/-- The tree as one would type it. -/
def inline (tree : Tree) : String :=
  writeInline "" tree

/-- The inline forms of several trees with `separator` between neighbours. -/
def joined (separator : String) (trees : List Tree) : String :=
  writeJoined separator "" trees

mutual

theorem writeInline_eq (out : String) : (tree : Tree) → writeInline out tree = out ++ tree.inline
  | .literal l => by simp [inline, writeInline]
  | .compound .parentheses children => by
    simp only [inline, writeInline, writeJoined_eq _ (out ++ "("), writeJoined_eq _ ("" ++ "(")]
    simp [String.append_assoc]
  | .compound (.operation _) children => by
    simp only [inline, writeInline, writeJoined_eq _ out, joined]

theorem writeJoined_eq (separator out : String) :
    (trees : List Tree) → writeJoined separator out trees = out ++ joined separator trees
  | [] => by simp [joined, writeJoined]
  | [tree] => by simp only [joined, writeJoined, writeInline_eq out, inline]
  | tree :: next :: rest => by
    simp only [joined, writeJoined]
    rw [writeJoined_eq, writeJoined_eq separator (writeInline "" tree ++ separator),
      writeInline_eq out]
    simp [inline, String.append_assoc]

end

@[simp] theorem inline_literal (l : Literal) : (literal l).inline = l.text := by
  simp [inline, writeInline]

@[simp] theorem inline_parentheses (children : List Tree) :
    (compound .parentheses children).inline = "(" ++ joined "" children ++ ")" := by
  simp [inline, writeInline, writeJoined_eq]

@[simp] theorem inline_operation (operator : Operator) (children : List Tree) :
    (compound (.operation operator) children).inline =
      joined operator.symbol.toString children := rfl

@[simp] theorem joined_nil (separator : String) : joined separator [] = "" := rfl

@[simp] theorem joined_singleton (separator : String) (tree : Tree) :
    joined separator [tree] = tree.inline := rfl

@[simp] theorem joined_cons_cons (separator : String) (tree next : Tree) (rest : List Tree) :
    joined separator (tree :: next :: rest) =
      tree.inline ++ separator ++ joined separator (next :: rest) := by
  conv => lhs; rw [joined, writeJoined, writeJoined_eq, writeInline_eq, String.empty_append]

/-! ## Outline -/

mutual

def writeLines (indent : Nat) (out : String) : Tree → String
  | .literal l => out.pushn '\t' indent ++ l.text ++ "\n"
  | .compound kind children =>
    writeAllLines (indent + 1) (out.pushn '\t' indent ++ kind.token ++ "\n") children

def writeAllLines (indent : Nat) (out : String) : List Tree → String
  | [] => out
  | tree :: rest => writeAllLines indent (writeLines indent out tree) rest

end

/-- One line for each node, from `indent` tabs on. -/
def lines (indent : Nat) (tree : Tree) : String :=
  writeLines indent "" tree

theorem toList_pushn (out : String) (c : Char) (n : Nat) :
    (out.pushn c n).toList = out.toList ++ List.replicate n c := by
  induction n with
  | zero => simp [String.pushn, Nat.repeat]
  | succ n ih =>
    simp only [String.pushn, Nat.repeat] at ih ⊢
    simp [ih, List.replicate_succ']

theorem pushn_eq (out : String) (c : Char) (n : Nat) : out.pushn c n = out ++ "".pushn c n := by
  simp [← String.toList_inj, toList_pushn]

mutual

theorem writeLines_eq (indent : Nat) (out : String) :
    (tree : Tree) → writeLines indent out tree = out ++ tree.lines indent
  | .literal l => by
    simp only [lines, writeLines, pushn_eq out, String.append_assoc]
  | .compound kind children => by
    simp only [lines, writeLines, writeAllLines_eq, pushn_eq out, String.append_assoc]

theorem writeAllLines_eq (indent : Nat) (out : String) :
    (trees : List Tree) →
      writeAllLines indent out trees = out ++ String.join (trees.map (lines indent))
  | [] => by simp [writeAllLines]
  | tree :: rest => by
    simp only [writeAllLines, writeAllLines_eq, writeLines_eq indent out]
    simp [← String.toList_inj]

end

@[simp] theorem lines_literal (indent : Nat) (l : Literal) :
    (literal l).lines indent = "".pushn '\t' indent ++ l.text ++ "\n" := rfl

@[simp] theorem lines_compound (indent : Nat) (kind : Compound) (children : List Tree) :
    (compound kind children).lines indent =
      "".pushn '\t' indent ++ kind.token ++ "\n" ++
        String.join (children.map (lines (indent + 1))) := by
  rw [lines, writeLines, writeAllLines_eq]

/-- The lines of the tree, except that a literal alone ends without a line break. -/
def outline (tree : Tree) (indent : Nat) : String :=
  match tree with
  | .literal l => "".pushn '\t' indent ++ l.text
  | .compound _ _ => tree.lines indent

/-! ## Literals -/

mutual

def collectLiterals (found : Array Literal) : Tree → Array Literal
  | .literal l => found.push l
  | .compound _ children => collectAllLiterals found children

def collectAllLiterals (found : Array Literal) : List Tree → Array Literal
  | [] => found
  | tree :: rest => collectAllLiterals (collectLiterals found tree) rest

end

/-- The literals of the tree, from left to right. -/
def literals (tree : Tree) : List Literal :=
  (collectLiterals #[] tree).toList

mutual

theorem toList_collectLiterals (found : Array Literal) :
    (tree : Tree) → (collectLiterals found tree).toList = found.toList ++ tree.literals
  | .literal l => by simp [literals, collectLiterals]
  | .compound kind children => by
    simp only [literals, collectLiterals, toList_collectAllLiterals found,
      toList_collectAllLiterals #[], List.nil_append]

theorem toList_collectAllLiterals (found : Array Literal) :
    (trees : List Tree) →
      (collectAllLiterals found trees).toList = found.toList ++ trees.flatMap literals
  | [] => by simp [collectAllLiterals]
  | tree :: rest => by
    simp only [collectAllLiterals, toList_collectAllLiterals (collectLiterals found tree),
      toList_collectLiterals found, List.flatMap_cons, List.append_assoc]

end

@[simp] theorem literals_literal (l : Literal) : (literal l).literals = [l] := rfl

@[simp] theorem literals_compound (kind : Compound) (children : List Tree) :
    (compound kind children).literals = children.flatMap literals := by
  simp only [literals, collectLiterals, toList_collectAllLiterals, List.nil_append]

end Tree
end ExprTree
