import ExprTree.Proofs.Tree.Canonical

/-!
# The grammar

`Derives` is the documented grammar, one constructor for each alternative of its
rules. It is ambiguous: a product can be grouped in many ways, and a literal is
derived from `E` by two. A canonical tree is what all derivations of a text have
in common, hence the derivable texts are those of canonical trees.
-/

namespace ExprTree

/-- The symbols of the grammar: an expression, a sum, a product, an operand, a literal. -/
inductive Nonterminal where
  | E
  | A
  | M
  | X
  | L

inductive Derives : Nonterminal → List Char → Prop where
  | sum {s : List Char} : Derives .A s → Derives .E s
  | operand {s : List Char} : Derives .X s → Derives .E s
  | add {s t : List Char} : Derives .A s → Derives .M t → Derives .A (s ++ '+' :: t)
  | summand {s : List Char} : Derives .M s → Derives .A s
  | multiply {s t : List Char} : Derives .M s → Derives .M t → Derives .M (s ++ '*' :: t)
  | factor {s : List Char} : Derives .X s → Derives .M s
  | parentheses {s : List Char} : Derives .E s → Derives .X ('(' :: (s ++ [')']))
  | literal {s : List Char} : Derives .L s → Derives .X s
  | digits {s : List Char} : s ≠ [] → (∀ c ∈ s, c.isDigit = true) → Derives .L s
  | letter {c : Char} : c.isLower = true → Derives .L [c]

/-! ## Canonical texts are derivable -/

theorem Derives.sum_intercalate {parts : List (List Char)} (hne : parts ≠ [])
    (h : ∀ part ∈ parts, Derives .M part) : Derives .A (List.intercalate ['+'] parts) := by
  induction parts using List.reverseRecOn with
  | nil => exact absurd rfl hne
  | append_singleton parts last ih =>
    have hlast : Derives .M last := h last (by simp)
    cases parts with
    | nil => simpa using hlast.summand
    | cons part rest =>
      have hparts := ih (List.cons_ne_nil part rest) fun p hp => h p (List.mem_append_left _ hp)
      rw [intercalate_append _ (List.cons_ne_nil part rest) (List.cons_ne_nil last [])]
      simpa using hparts.add hlast

theorem Derives.product_intercalate {parts : List (List Char)} (hne : parts ≠ [])
    (h : ∀ part ∈ parts, Derives .M part) : Derives .M (List.intercalate ['*'] parts) := by
  induction parts with
  | nil => exact absurd rfl hne
  | cons part rest ih =>
    have hpart : Derives .M part := h part List.mem_cons_self
    cases rest with
    | nil => simpa using hpart
    | cons next rest =>
      have hrest := ih (List.cons_ne_nil next rest) fun p hp => h p (List.mem_cons_of_mem _ hp)
      simpa using hpart.multiply hrest

theorem Literal.derives (l : Literal) : Derives .L l.text.toList := by
  cases Bool.or_eq_true_iff.mp l.valid with
  | inl hnumber =>
    obtain ⟨hne, hdigits⟩ := isNumber_iff.mp hnumber
    exact .digits hne hdigits
  | inr hletter =>
    obtain ⟨c, htext, hlower⟩ := isLetter_iff.mp hletter
    rw [htext]
    exact .letter hlower

namespace Tree.Canonical

/-- The text is derivable from `E`, and without a sum or without any operator at the
root also from the symbols further down. -/
theorem derives {tree : Tree} (h : tree.Canonical) :
    Derives .E tree.text ∧ (Operator.add.admits tree.content = true → Derives .M tree.text) ∧
      (Operator.multiply.admits tree.content = true → Derives .X tree.text) := by
  induction h with
  | literal l =>
    have hoperand : Derives .X (Tree.text (.literal l)) := .literal l.derives
    exact ⟨hoperand.operand, fun _ => hoperand.factor, fun _ => hoperand⟩
  | @parentheses inner _ ih =>
    have hoperand : Derives .X (compound .parentheses [inner]).text := by
      rw [text_parentheses]
      exact ih.1.parentheses
    exact ⟨hoperand.operand, fun _ => hoperand.factor, fun _ => hoperand⟩
  | @operation operator children hlength hadmits _ ih =>
    have hne : children.map text ≠ [] := map_text_ne_nil (by omega)
    have hparts : ∀ part ∈ children.map text, Derives .M part :=
      List.forall_mem_map.mpr fun child hchild =>
        (ih child hchild).2.1 (Operator.admits_add (hadmits child hchild))
    rw [text_operation]
    cases operator with
    | add => exact ⟨(Derives.sum_intercalate hne hparts).sum, by simp [Operator.admits, content],
        by simp [Operator.admits, content]⟩
    | multiply =>
      have hproduct := Derives.product_intercalate hne hparts
      exact ⟨hproduct.summand.sum, fun _ => hproduct, by simp [Operator.admits, content]⟩

end Tree.Canonical

/-! ## Derivable texts are canonical -/

namespace Tree

/-- The operands of a tree seen as a chain of the operator, itself alone if it is none. -/
def operands (operator : Operator) : Tree → List Tree
  | .compound (.operation inner) children =>
    if inner = operator then children else [.compound (.operation inner) children]
  | tree => [tree]

/-- Two trees joined by an operator, as one chain. -/
def join (operator : Operator) (left right : Tree) : Tree :=
  .compound (.operation operator) (left.operands operator ++ right.operands operator)

section Join

variable {operator : Operator} {tree left right : Tree}

theorem operands_ne_nil (operator : Operator) (h : tree.Canonical) :
    tree.operands operator ≠ [] := by
  unfold operands
  split
  · rename_i inner children
    split
    · cases h with
      | operation hlength _ _ =>
        rintro rfl
        simp at hlength
    · simp
  · simp

theorem intercalate_operands :
    List.intercalate [operator.symbol] ((tree.operands operator).map text) = tree.text := by
  unfold operands
  split
  · split
    · rename_i hinner
      rw [text_operation, hinner]
    · simp
  · simp

/-- Every tree may be taken apart as a sum, and every tree but a sum as a product. -/
theorem canonical_of_mem_operands (h : tree.Canonical)
    (hoperator : operator = .add ∨ Operator.add.admits tree.content = true) {operand : Tree}
    (hmem : operand ∈ tree.operands operator) :
    operator.admits operand.content = true ∧ operand.Canonical := by
  unfold operands at hmem
  split at hmem
  · rename_i inner children
    split at hmem
    · rename_i hinner
      subst hinner
      cases h with
      | operation _ hchildren hcanonical =>
        exact ⟨hchildren operand hmem, hcanonical operand hmem⟩
    · rename_i hinner
      obtain rfl := List.mem_singleton.mp hmem
      refine ⟨?_, h⟩
      cases operator <;> cases inner <;> simp_all [Operator.admits, content]
  · rename_i hother
    obtain rfl := List.mem_singleton.mp hmem
    refine ⟨?_, h⟩
    cases h with
    | literal l => rfl
    | parentheses _ => rfl
    | operation _ _ _ => exact absurd rfl (hother _ _)

theorem text_join (hleft : left.Canonical) (hright : right.Canonical) :
    (left.join operator right).text = left.text ++ operator.symbol :: right.text := by
  rw [join, text_operation, List.map_append,
    intercalate_append _ (mt List.map_eq_nil_iff.mp (operands_ne_nil _ hleft))
      (mt List.map_eq_nil_iff.mp (operands_ne_nil _ hright)),
    intercalate_operands, intercalate_operands]
  simp

theorem canonical_join (hleft : left.Canonical) (hright : right.Canonical)
    (hoperator : operator = .add ∨ Operator.add.admits left.content = true)
    (hoperator' : operator = .add ∨ Operator.add.admits right.content = true) :
    (left.join operator right).Canonical := by
  have hoperands : ∀ operand ∈ left.operands operator ++ right.operands operator,
      operator.admits operand.content = true ∧ operand.Canonical := by
    intro operand hmem
    cases List.mem_append.mp hmem with
    | inl hmem => exact canonical_of_mem_operands hleft hoperator hmem
    | inr hmem => exact canonical_of_mem_operands hright hoperator' hmem
  apply Canonical.operation
  · have := List.length_pos_of_ne_nil (operands_ne_nil operator hleft)
    have := List.length_pos_of_ne_nil (operands_ne_nil operator hright)
    rw [List.length_append]
    omega
  · intro operand hmem
    exact (hoperands operand hmem).1
  · intro operand hmem
    exact (hoperands operand hmem).2

end Join

end Tree

theorem Literal.exists_text {s : List Char} (h : (isNumber s || isLetter s) = true) :
    ∃ l : Literal, l.text.toList = s :=
  ⟨⟨String.ofList s, by simpa using h⟩, String.toList_ofList⟩

/-- Which canonical trees belong to a symbol. -/
def Nonterminal.Fits : Nonterminal → Tree → Prop
  | .E, _ => True
  | .A, _ => True
  | .M, tree => Operator.add.admits tree.content = true
  | .X, tree => Operator.multiply.admits tree.content = true
  | .L, tree => ∃ l, tree = .literal l

theorem Derives.exists_canonical {symbol : Nonterminal} {s : List Char} (h : Derives symbol s) :
    ∃ tree : Tree, tree.Canonical ∧ tree.text = s ∧ symbol.Fits tree := by
  induction h with
  | sum _ ih => exact ih
  | operand _ ih =>
    obtain ⟨tree, hcanonical, htext, -⟩ := ih
    exact ⟨tree, hcanonical, htext, trivial⟩
  | add _ _ ihs iht =>
    obtain ⟨left, hleft, rfl, -⟩ := ihs
    obtain ⟨right, hright, rfl, -⟩ := iht
    exact ⟨left.join .add right, Tree.canonical_join hleft hright (.inl rfl) (.inl rfl),
      Tree.text_join hleft hright, trivial⟩
  | summand _ ih =>
    obtain ⟨tree, hcanonical, htext, -⟩ := ih
    exact ⟨tree, hcanonical, htext, trivial⟩
  | multiply _ _ ihs iht =>
    obtain ⟨left, hleft, rfl, hfits⟩ := ihs
    obtain ⟨right, hright, rfl, hfits'⟩ := iht
    exact ⟨left.join .multiply right, Tree.canonical_join hleft hright (.inr hfits) (.inr hfits'),
      Tree.text_join hleft hright, rfl⟩
  | factor _ ih =>
    obtain ⟨tree, hcanonical, htext, hfits⟩ := ih
    exact ⟨tree, hcanonical, htext, Operator.admits_add hfits⟩
  | parentheses _ ih =>
    obtain ⟨tree, hcanonical, rfl, -⟩ := ih
    exact ⟨.compound .parentheses [tree], .parentheses hcanonical, Tree.text_parentheses tree, rfl⟩
  | literal _ ih =>
    obtain ⟨tree, hcanonical, htext, l, rfl⟩ := ih
    exact ⟨.literal l, hcanonical, htext, rfl⟩
  | @digits s hne hdigits =>
    have hnumber : isNumber s = true := isNumber_iff.mpr ⟨hne, hdigits⟩
    obtain ⟨l, rfl⟩ := Literal.exists_text (Bool.or_eq_true_iff.mpr (.inl hnumber))
    exact ⟨.literal l, .literal l, rfl, l, rfl⟩
  | @letter c hlower =>
    have hletter : isLetter [c] = true := isLetter_iff.mpr ⟨c, rfl, hlower⟩
    obtain ⟨l, hl⟩ := Literal.exists_text (Bool.or_eq_true_iff.mpr (.inr hletter))
    exact ⟨.literal l, .literal l, hl, l, rfl⟩

theorem derives_iff_exists_canonical {s : List Char} :
    Derives .E s ↔ ∃ tree : Tree, tree.Canonical ∧ tree.text = s := by
  constructor
  · intro h
    obtain ⟨tree, hcanonical, htext, -⟩ := h.exists_canonical
    exact ⟨tree, hcanonical, htext⟩
  · rintro ⟨tree, hcanonical, rfl⟩
    exact hcanonical.derives.1

/-! ## Expressions side by side -/

namespace Derives

variable {s t : List Char}

theorem summands (h : Derives .E s) : Derives .A s := by
  cases h with
  | sum h => exact h
  | operand h => exact h.factor.summand

/-- The summands of the second text go on with the sum that is the first one. -/
theorem append_plus (hs : Derives .A s) (ht : Derives .A t) : Derives .A (s ++ '+' :: t) := by
  generalize hsymbol : Nonterminal.A = symbol at ht
  induction ht with
  | add _ hlast ih => simpa using (ih hsymbol).add hlast
  | summand h => exact hs.add h
  | _ => cases hsymbol

/-- The last summand of the first text and the first one of the second become one product. -/
theorem append_times (hs : Derives .A s) (ht : Derives .A t) : Derives .A (s ++ '*' :: t) := by
  generalize hsymbol : Nonterminal.A = symbol at ht
  induction ht with
  | add _ hlast ih => simpa using (ih hsymbol).add hlast
  | summand h =>
    cases hs with
    | add hfirst hlast => simpa using hfirst.add (hlast.multiply h)
    | summand hs => exact (hs.multiply h).summand
  | _ => cases hsymbol

/-- An operator between two expressions makes an expression, however each is grouped. -/
theorem append_operator (operator : Operator) (hs : Derives .E s) (ht : Derives .E t) :
    Derives .E (s ++ operator.symbol :: t) := by
  cases operator with
  | add => exact (hs.summands.append_plus ht.summands).sum
  | multiply => exact (hs.summands.append_times ht.summands).sum

end Derives

end ExprTree
