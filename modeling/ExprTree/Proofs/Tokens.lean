import ExprTree.Proofs.Expression.Walk
import ExprTree.Proofs.Parsing
import Mathlib.Data.List.SplitBy

/-!
# What becomes of the characters of a text

A text is made of words, which are runs of digits and single letters, and of the signs of
compounds: the operators and the parentheses. Reading it gives every word a literal, every
opening parenthesis a node of its own, and every sum and product the operators between its
operands. Nothing is lost, doubled or moved.

No text is ever cut into words and signs on the way. The tree that comes out is canonical and
its inline form is the text, so that it is enough to count in the inline form of a tree.
-/

namespace ExprTree

/-! ## Words -/

/-- The longest runs of digits and the single letters of a text, from left to right. -/
def words (s : List Char) : List (List Char) :=
  (s.splitBy fun c d => c.isDigit && d.isDigit).filter fun word => isNumber word || isLetter word

@[simp] theorem words_nil : words [] = [] := rfl

theorem words_append {s t : List Char}
    (h : ∀ c ∈ s.getLast?, ∀ d ∈ t.head?, (c.isDigit && d.isDigit) = false) :
    words (s ++ t) = words s ++ words t := by
  rw [words, List.splitBy_append h, List.filter_append]
  rfl

theorem words_singleton {c : Char} (h : isLiteralChar c = false) : words [c] = [] := by
  have : c.isDigit = false ∧ c.isLower = false := by simpa [isLiteralChar] using h
  simp [words, List.splitBy_of_isChain, isNumber, isLetter, this]

/-- A character that belongs to no literal separates the words before it from those behind it. -/
theorem words_append_cons {c : Char} (hc : isLiteralChar c = false) (s t : List Char) :
    words (s ++ c :: t) = words s ++ words t := by
  have hdigit : c.isDigit = false := (Bool.or_eq_false_iff.mp hc).1
  have hback : words ([c] ++ t) = words [c] ++ words t := words_append (by simp [hdigit])
  rw [words_append (by simp [hdigit]), ← List.singleton_append, hback, words_singleton hc,
    List.nil_append]

theorem words_cons {c : Char} (hc : isLiteralChar c = false) (t : List Char) :
    words (c :: t) = words t := by
  simpa using words_append_cons hc [] t

theorem words_intercalate {joint : Char} (hjoint : isLiteralChar joint = false)
    (parts : List (List Char)) :
    words (List.intercalate [joint] parts) = parts.flatMap words := by
  induction parts with
  | nil => rfl
  | cons part rest ih =>
    cases rest with
    | nil => simp
    | cons next rest =>
      rw [List.intercalate_cons_cons, List.append_assoc, List.singleton_append,
        words_append_cons hjoint, ih, ← List.flatMap_cons]

theorem words_literal (l : Literal) : words l.text.toList = [l.text.toList] := by
  have hchain : l.text.toList.IsChain fun c d => (c.isDigit && d.isDigit) = true := by
    cases Bool.or_eq_true_iff.mp l.valid with
    | inl hnumber =>
      have hdigits := (isNumber_iff.mp hnumber).2
      apply List.Pairwise.isChain
      apply List.pairwise_of_forall_mem_list
      intro c hc d hd
      rw [hdigits c hc, hdigits d hd]
      rfl
    | inr hletter =>
      obtain ⟨c, htext, -⟩ := isLetter_iff.mp hletter
      simp [htext]
  rw [words, List.splitBy_of_isChain l.text_ne_nil hchain]
  simp [l.valid]

theorem isLiteralChar_symbol (operator : Operator) : isLiteralChar operator.symbol = false := by
  cases operator <;> rfl

/-- The words of the inline form are the literals. -/
theorem Tree.Canonical.words_text {tree : Tree} (h : tree.Canonical) :
    words tree.text = tree.literals.map (·.text.toList) := by
  induction h with
  | literal l => rw [text_literal, words_literal, literals_literal, List.map_singleton]
  | parentheses _ ih =>
    rw [text_parentheses, words_cons rfl, words_append_cons rfl, words_nil, List.append_nil, ih]
    simp
  | operation _ _ _ ih =>
    rw [text_operation, words_intercalate (isLiteralChar_symbol _), List.flatMap_map,
      literals_compound, List.map_flatMap]
    exact List.flatMap_congr ih

/-! ## Signs -/

namespace Compound

/-- The character by which a compound is counted in a text. -/
def sign : Compound → Char
  | .operation operator => operator.symbol
  | .parentheses => '('

/-- How often a node with that many children writes its sign. -/
def signs : Compound → Nat → Int
  | .operation _, arity => arity - 1
  | .parentheses, _ => 1

theorem sign_inj {a b : Compound} : a.sign = b.sign ↔ a = b := by
  constructor
  · intro h
    rcases a with (_ | _) | _ <;> rcases b with (_ | _) | _ <;> first | rfl | cases h
  · rintro rfl
    rfl

theorem isLiteralChar_sign (kind : Compound) : isLiteralChar kind.sign = false := by
  cases kind with
  | operation operator => exact isLiteralChar_symbol operator
  | parentheses => rfl

theorem sign_ne_close (kind : Compound) : kind.sign ≠ ')' := by
  rcases kind with (_ | _) | _ <;> decide

end Compound

/-- What the node holds, and how many children it has. -/
def Node.shape (node : Node) : Content × Nat :=
  (node.content, node.children.size)

def Tree.shape (tree : Tree) : Content × Nat :=
  (tree.content, tree.children.length)

theorem Tree.shape_literal (l : Literal) : (literal l).shape = (.literal l, 0) := rfl

theorem Tree.shape_compound (kind : Compound) (children : List Tree) :
    (compound kind children).shape = (.compound kind, children.length) := rfl

/-- How often nodes of these shapes write the sign of a compound. -/
def signsIn (kind : Compound) (shapes : List (Content × Nat)) : Int :=
  ((shapes.filter fun shape => shape.1 = .compound kind).map fun shape => kind.signs shape.2).sum

theorem signsIn_cons (kind : Compound) (content : Content) (arity : Nat)
    (shapes : List (Content × Nat)) :
    signsIn kind ((content, arity) :: shapes) =
      (if content = .compound kind then kind.signs arity else 0) + signsIn kind shapes := by
  unfold signsIn
  by_cases h : content = .compound kind
  · rw [List.filter_cons_of_pos (by simpa using h), List.map_cons, List.sum_cons, if_pos h]
  · rw [List.filter_cons_of_neg (by simpa using h), if_neg h, Int.zero_add]

theorem signsIn_flatMap {α : Type} (kind : Compound) (shapes : α → List (Content × Nat))
    (parts : List α) :
    signsIn kind (parts.flatMap shapes) =
      (parts.map fun part => signsIn kind (shapes part)).sum := by
  induction parts with
  | nil => rfl
  | cons part rest ih =>
    rw [List.flatMap_cons, List.map_cons, List.sum_cons, ← ih]
    simp [signsIn]

/-- A sign stands in the inline form as often as the nodes of the tree write it. -/
theorem Tree.Canonical.count_sign {tree : Tree} (h : tree.Canonical) (kind : Compound)
    (depth : Nat) :
    (tree.text.count kind.sign : Int) =
      signsIn kind ((tree.preorder depth).map fun row => row.2.shape) := by
  induction h generalizing depth with
  | literal l =>
    have hnot : kind.sign ∉ l.text.toList := by
      intro hmem
      simpa [kind.isLiteralChar_sign] using l.isLiteralChar_of_mem hmem
    rw [text_literal, List.count_eq_zero_of_not_mem hnot, preorder_literal, List.map_singleton,
      shape_literal, signsIn_cons]
    rfl
  | @parentheses inner _ ih =>
    rw [text_parentheses, preorder_compound, List.flatMap_singleton, List.map_cons, shape_compound,
      signsIn_cons, ← ih, List.count_cons, List.count_append, List.count_singleton,
      if_neg (by simpa using kind.sign_ne_close.symm)]
    cases kind with
    | operation operator => cases operator <;> simp [Compound.sign, Operator.symbol]
    | parentheses => simp [Compound.sign, Compound.signs, Int.add_comm]
  | @operation operator children harity _ _ ih =>
    have hbelow : ((children.map text).map fun part => (part.count kind.sign : Int)) =
        children.map fun child =>
          signsIn kind ((child.preorder (depth + 1)).map fun row => row.2.shape) := by
      rw [List.map_map]
      exact List.map_congr_left fun child hchild => ih child hchild (depth + 1)
    -- The joints are signs of the node itself, and all others are written further down.
    have hjoint : operator.symbol = kind.sign ↔ Compound.operation operator = kind :=
      Compound.sign_inj (a := .operation operator)
    rw [text_operation, count_intercalate _ _ (map_text_ne_nil (by omega)), hbelow,
      preorder_compound, List.map_cons, shape_compound, signsIn_cons, List.map_flatMap,
      signsIn_flatMap, Int.add_comm, List.length_map]
    simp only [hjoint, Content.compound.injEq]
    split
    · rename_i hkind
      subst hkind
      rfl
    · rfl

namespace Expression

variable {e : Expression}

theorem map_node?_ofIndex (hroom : e.size ≤ 2 ^ 32) :
    (List.range e.size).map (fun i => e.node? (NodeId.ofIndex i)) = e.nodes.toList.map some := by
  apply List.ext_getElem (by simp [size])
  intro i hi _
  have hi : i < e.nodes.size := by simpa [size] using hi
  simp [node?, NodeId.index_ofIndex (hi.trans_le hroom), Array.getElem?_eq_getElem hi]

theorem Stored.map_shape {parent : Option NodeId} {t : Subtree} (h : e.Stored parent t) :
    (e.node? t.id).map Node.shape = some t.tree.shape := by
  rw [h.node?_eq]
  cases h with
  | @node _ id content children _ hleaf _ =>
    cases content with
    | literal l =>
      obtain rfl := hleaf rfl
      simp [Node.shape, Tree.shape_literal]
    | compound kind => simp [Node.shape, Tree.shape_compound]

/-- The nodes of a dense expression have the shapes of the parts of its tree. -/
theorem Dense.map_shape {tree : Tree} (h : e.Dense tree) (hroom : e.size ≤ 2 ^ 32) :
    e.nodes.toList.map Node.shape = (tree.preorder 0).map fun row => row.2.shape := by
  have hshapes : (tree.number 0).ids.map (fun id => (e.node? id).map Node.shape) =
      ((tree.number 0).tree.preorder 0).map fun row => some row.2.shape :=
    h.stored.map_ids (fun _ _ => True) (fun _ _ _ _ _ => trivial)
      (fun _ _ _ hpart _ => hpart.map_shape) trivial
  have hnodes := congrArg (List.map (Option.map Node.shape)) (map_node?_ofIndex hroom)
  rw [Tree.tree_number, Tree.ids_number, ← h.size, ← List.range_eq_range', List.map_map] at hshapes
  rw [List.map_map, List.map_map] at hnodes
  apply (Option.some_injective _).list_map
  rw [List.map_map, List.map_map]
  exact hnodes.symm.trans hshapes

/-- Every word and every sign of a text is accounted for by what is read: the literals are the
words from left to right, and the nodes of each kind have the signs of that kind to
themselves. -/
theorem tokens_of_parse {text : String} (hlength : text.length ≤ 2 ^ 32) {log log' : Log}
    (h : parse text log = .ok e log') :
    (∃ literals, e.literals e.root = .ok literals ∧
      literals.map (·.text.toList) = words (withoutBlanks text.toList)) ∧
    e.nodes.toList.countP (fun node => node.content = .compound .parentheses) =
      (withoutBlanks text.toList).count '(' ∧
    ∀ operator, ((e.nodes.toList.filter
        fun node => node.content = .compound (.operation operator)).map
          fun node => (node.children.size : Int) - 1).sum =
      (withoutBlanks text.toList).count operator.symbol := by
  have hroom : e.size ≤ 2 ^ 32 := (size_le_of_parse h).trans hlength
  obtain ⟨tree, hreads, -, hdense⟩ := of_parse_eq_ok h hroom
  have hsigns : ∀ kind : Compound, ((withoutBlanks text.toList).count kind.sign : Int) =
      ((e.nodes.toList.filter fun node => node.content = .compound kind).map
        fun node => kind.signs node.children.size).sum := by
    intro kind
    rw [← hreads.text_eq, hreads.canonical.count_sign kind 0, ← hdense.map_shape hroom, signsIn,
      List.filter_map, List.map_map]
    rfl
  refine ⟨⟨_, literals_ok (hdense.tree_eq hroom), ?_⟩, ?_, ?_⟩
  · rw [← hreads.text_eq, hreads.canonical.words_text]
  · have hparentheses := hsigns .parentheses
    simp only [Compound.sign, Compound.signs, List.map_const', List.sum_replicate, nsmul_eq_mul,
      mul_one] at hparentheses
    rw [List.countP_eq_length_filter]
    exact_mod_cast hparentheses.symm
  · intro operator
    exact (hsigns (.operation operator)).symm

/-- A sum in parentheses, with a product in it and another one around it. -/
theorem tokens_of_parse_nested :
    ∃ e log' literals, parse "(2*x + 13)*y" #[] = .ok e log' ∧ e.literals e.root = .ok literals ∧
      literals.map (·.text.toList) = [['2'], ['x'], ['1', '3'], ['y']] ∧
      e.nodes.toList.countP (fun node => node.content = .compound .parentheses) = 1 ∧
      ((e.nodes.toList.filter fun node => node.content = .compound (.operation .multiply)).map
        fun node => (node.children.size : Int) - 1).sum = 2 := by
  have hproduct : (Tree.compound (.operation .multiply)
      [.literal ⟨"2", by decide⟩, .literal ⟨"x", by decide⟩]).Canonical :=
    .operation (by decide) (by simp [Tree.content, Operator.admits])
      (by simp [Tree.Canonical.literal])
  have hsum : (Tree.compound (.operation .add) [.compound (.operation .multiply)
      [.literal ⟨"2", by decide⟩, .literal ⟨"x", by decide⟩],
      .literal ⟨"13", by decide⟩]).Canonical :=
    .operation (by decide) (by simp [Tree.content, Operator.admits])
      (by simp [Tree.Canonical.literal, hproduct])
  have hreads : ReadAs "(2*x + 13)*y".toList (.compound (.operation .multiply)
      [.compound .parentheses [.compound (.operation .add) [.compound (.operation .multiply)
        [.literal ⟨"2", by decide⟩, .literal ⟨"x", by decide⟩], .literal ⟨"13", by decide⟩]],
        .literal ⟨"y", by decide⟩]) :=
    ⟨List.all_eq_true.mp rfl, .operation (by decide) (by simp [Tree.content, Operator.admits])
      (by simp [Tree.Canonical.literal, Tree.Canonical.parentheses hsum]), rfl⟩
  obtain ⟨e, -, -, hparse⟩ := exists_parse hreads (by decide) #[]
  obtain ⟨⟨literals, hliterals, hwords⟩, hparentheses, hsigns⟩ :=
    tokens_of_parse (by decide) hparse
  exact ⟨e, _, literals, hparse, hliterals, hwords.trans rfl, hparentheses.trans rfl,
    (hsigns .multiply).trans rfl⟩

end Expression
end ExprTree
