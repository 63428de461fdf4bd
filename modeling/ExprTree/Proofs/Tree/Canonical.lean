import ExprTree.Proofs.Text.Pieces
import ExprTree.Proofs.Tree.Basic
import ExprTree.Text.Alphabet

/-!
# Canonical trees

A tree is canonical when it is the tree of its own inline form: parentheses hold
one child, an operator has at least two operands, and no operand would need
parentheses that it does not have. The text of a canonical tree is balanced, and
its operators outside of all parentheses are those of the root, or of the products
in a sum. Hence the shallowest operator is the root's, and cutting there gives the
texts of the children.
-/

namespace ExprTree

/-- Whether the content may stand as an operand without parentheses around it. -/
def Operator.admits (operator : Operator) : Content → Bool
  | .compound (.operation inner) => operator == .add && inner == .multiply
  | _ => true

/-- A sum admits every operand that a product admits. -/
theorem Operator.admits_add {operator : Operator} {content : Content}
    (h : operator.admits content = true) : Operator.add.admits content = true := by
  cases operator with
  | add => exact h
  | multiply =>
    unfold admits at h ⊢
    split <;> simp_all

/-- What may stand as an operand is not absorbed. -/
theorem Operator.absorbs_eq_false {operator : Operator} {content : Content}
    (h : operator.admits content = true) :
    (Content.compound (.operation operator)).absorbs content = false := by
  unfold admits at h
  split at h
  · cases operator <;> simp_all [Content.absorbs, Compound.absorbs]
  · cases content with
    | literal l => rfl
    | compound kind => cases kind <;> simp_all [Content.absorbs, Compound.absorbs]

inductive Tree.Canonical : Tree → Prop where
  | literal (l : Literal) : Canonical (.literal l)
  | parentheses {inner : Tree} : Canonical inner → Canonical (.compound .parentheses [inner])
  | operation {operator : Operator} {children : List Tree} : 2 ≤ children.length →
      (∀ child ∈ children, operator.admits child.content = true) →
      (∀ child ∈ children, Canonical child) → Canonical (.compound (.operation operator) children)

/-- The children of a canonical tree are canonical, and none of them is absorbed. -/
theorem Tree.Canonical.of_mem {kind : Compound} {children : List Tree}
    (h : Canonical (.compound kind children)) {child : Tree} (hchild : child ∈ children) :
    child.Canonical ∧ (Content.compound kind).absorbs child.content = false := by
  cases h with
  | parentheses hinner =>
    obtain rfl := List.mem_singleton.mp hchild
    exact ⟨hinner, by cases child.content <;> rfl⟩
  | operation _ hadmits hcanonical =>
    exact ⟨hcanonical child hchild, Operator.absorbs_eq_false (hadmits child hchild)⟩

/-! ## Characters of literals -/

theorem isNumber_iff {s : List Char} :
    isNumber s = true ↔ s ≠ [] ∧ ∀ c ∈ s, c.isDigit = true := by
  simp [isNumber]

theorem isLetter_iff {s : List Char} :
    isLetter s = true ↔ ∃ c, s = [c] ∧ c.isLower = true := by
  constructor
  · intro h
    unfold isLetter at h
    split at h
    · exact ⟨_, rfl, h⟩
    · cases h
  · rintro ⟨c, rfl, h⟩
    exact h

theorem Literal.isLiteralChar_of_mem {l : Literal} {c : Char} (h : c ∈ l.text.toList) :
    isLiteralChar c = true := by
  rw [isLiteralChar, Bool.or_eq_true_iff]
  cases Bool.or_eq_true_iff.mp l.valid with
  | inl hnumber => exact .inl ((isNumber_iff.mp hnumber).2 c h)
  | inr hletter =>
    obtain ⟨letter, htext, hlower⟩ := isLetter_iff.mp hletter
    rw [htext, List.mem_singleton] at h
    exact .inr (h ▸ hlower)

theorem Literal.text_ne_nil (l : Literal) : l.text.toList ≠ [] := by
  intro hnil
  have := l.valid
  simp [hnil, isNumber, isLetter] at this

theorem nesting_of_isLiteralChar {c : Char} (h : isLiteralChar c = true) : nesting c = 0 := by
  refine nesting_of_ne ?_ ?_ <;> rintro rfl <;> revert h <;> decide

theorem symbol_ne_of_isLiteralChar {c : Char} (h : isLiteralChar c = true) (operator : Operator) :
    c ≠ operator.symbol := by
  rintro rfl
  cases operator <;> revert h <;> decide

namespace Tree.Canonical

variable {tree : Tree}

theorem balanced (h : tree.Canonical) : Balanced tree.text := by
  induction h with
  | literal l => exact .of_forall fun c hc => nesting_of_isLiteralChar (l.isLiteralChar_of_mem hc)
  | parentheses _ ih =>
    rw [text_parentheses]
    exact ih.wrap
  | operation _ _ _ ih =>
    rw [text_operation]
    exact Balanced.intercalate (List.forall_mem_map.mpr ih)

/-- In a chain of canonical operands, an operator stands in an operand or is one of the
joints. -/
theorem stands_operation_iff {operator joint : Operator} {level : Int} {children : List Tree}
    (h : ∀ child ∈ children, child.Canonical) :
    Stands operator level (compound (.operation joint) children).text ↔
      (∃ child ∈ children, Stands operator level child.text) ∨
        (operator = joint ∧ level = 0 ∧ 2 ≤ children.length) := by
  have hnet : ∀ operand ∈ children.map text, net operand = 0 :=
    List.forall_mem_map.mpr fun child hchild => (h child hchild).balanced.net_eq
  rw [text_operation, Stands.intercalate_iff hnet, List.length_map]
  simp

/-- An operand that the operator admits does not show it outside of parentheses. -/
theorem not_stands_of_admits {operator : Operator} (h : tree.Canonical)
    (hadmits : operator.admits tree.content = true) : ¬ Stands operator 0 tree.text := by
  induction h generalizing operator with
  | literal l =>
    intro hs
    exact symbol_ne_of_isLiteralChar (l.isLiteralChar_of_mem hs.mem) operator rfl
  | parentheses hinner _ =>
    rw [text_parentheses]
    intro hs
    have := hs.one_le_of_wrap hinner.balanced
    omega
  | @operation inner children _ hchildren hcanonical ih =>
    obtain ⟨rfl, rfl⟩ : operator = .add ∧ inner = .multiply := by
      simpa [Operator.admits, content] using hadmits
    rw [stands_operation_iff hcanonical]
    rintro (⟨child, hchild, hs⟩ | ⟨hne, -⟩)
    · exact ih child hchild (Operator.admits_add (hchildren child hchild)) hs
    · exact absurd hne (by decide)

section Operation

variable {operator : Operator} {children : List Tree} {child : Tree}

theorem stands (h : Canonical (.compound (.operation operator) children)) :
    Stands operator 0 (compound (.operation operator) children).text := by
  cases h with
  | operation hlength _ hcanonical =>
    exact (stands_operation_iff hcanonical).mpr (.inr ⟨rfl, rfl, hlength⟩)

/-- The shallowest operator of the text is the one at the root of the tree. -/
theorem shallowest (h : Canonical (.compound (.operation operator) children)) :
    Shallowest (compound (.operation operator) children).text 0 operator where
  stands := h.stands
  least _ _ hs := hs.floor_le h.balanced.staysAbove
  sum_first hs := by
    cases operator with
    | add => rfl
    | multiply => exact absurd hs (h.not_stands_of_admits rfl)

/-- Cutting the text at the operator of the root gives the texts of the children. -/
theorem pieces_text (h : Canonical (.compound (.operation operator) children)) :
    pieces operator 0 (compound (.operation operator) children).text = children.map text := by
  cases h with
  | operation hlength hadmits hcanonical =>
    rw [text_operation]
    apply pieces_intercalate (map_text_ne_nil (by omega))
    · exact List.forall_mem_map.mpr fun child hchild =>
        (hcanonical child hchild).not_stands_of_admits (hadmits child hchild)
    · exact List.forall_mem_map.mpr fun child hchild => (hcanonical child hchild).balanced.net_eq

/-- An operand that does not show the operator outside of parentheses is not absorbed. -/
theorem absorbs_eq_false_of_not_stands (h : tree.Canonical)
    (hclear : ¬ Stands operator 0 tree.text) :
    (Content.compound (.operation operator)).absorbs tree.content = false := by
  have hself := h
  cases h with
  | literal l => rfl
  | parentheses _ => rfl
  | @operation inner _ _ _ _ =>
    by_cases hsame : operator = inner
    · exact absurd (hsame ▸ hself.stands) hclear
    · simpa [content, Content.absorbs, Compound.absorbs] using hsame

/-- Between canonical operands no operator is shallower than those that join them. -/
theorem level_eq_zero {level : Int} (hlength : 2 ≤ children.length)
    (hcanonical : ∀ child ∈ children, child.Canonical)
    (hshallow : Shallowest (compound (.operation operator) children).text level operator) :
    level = 0 := by
  apply Int.le_antisymm
  · exact hshallow.least operator 0
      ((stands_operation_iff hcanonical).mpr (.inr ⟨rfl, rfl, hlength⟩))
  · rcases (stands_operation_iff hcanonical).mp hshallow.stands with
      ⟨child, hchild, hs⟩ | ⟨-, hzero, -⟩
    · exact hs.floor_le (hcanonical child hchild).balanced.staysAbove
    · exact hzero.ge

/-- Where an operator is the shallowest, it admits its operands unless it absorbs them. -/
theorem admits_of_shallowest (hcanonical : ∀ child ∈ children, child.Canonical)
    (hshallow : Shallowest (compound (.operation operator) children).text 0 operator)
    (hchild : child ∈ children)
    (hkept : (Content.compound (.operation operator)).absorbs child.content = false) :
    operator.admits child.content = true := by
  have hself := hcanonical child hchild
  cases hcanonical child hchild with
  | literal l => rfl
  | parentheses _ => rfl
  | @operation inner _ _ _ _ =>
    cases operator with
    | add =>
      cases inner with
      | add => cases hkept
      | multiply => rfl
    | multiply =>
      cases inner with
      | add =>
        have hsum : Stands .add 0 (compound (.operation .multiply) children).text :=
          (stands_operation_iff hcanonical).mpr (.inl ⟨_, hchild, hself.stands⟩)
        exact absurd (hshallow.sum_first hsum) (by decide)
      | multiply => cases hkept

end Operation

theorem exists_isLiteralChar (h : tree.Canonical) : ∃ c ∈ tree.text, isLiteralChar c = true := by
  induction h with
  | literal l =>
    obtain ⟨c, rest, hl⟩ := List.exists_cons_of_ne_nil l.text_ne_nil
    have hc : c ∈ l.text.toList := hl ▸ List.mem_cons_self
    exact ⟨c, hc, l.isLiteralChar_of_mem hc⟩
  | parentheses _ ih =>
    obtain ⟨c, hc, hliteral⟩ := ih
    exact ⟨c, by simp [hc], hliteral⟩
  | @operation operator children hlength _ _ ih =>
    obtain ⟨child, rest, rfl⟩ := List.exists_cons_of_length_pos (by omega : 0 < children.length)
    obtain ⟨c, hc, hliteral⟩ := ih child List.mem_cons_self
    have hrest : rest.map text ≠ [] := map_text_ne_nil (Nat.le_of_succ_le_succ hlength)
    rw [text_operation, List.map_cons, List.intercalate_cons_of_ne_nil hrest]
    exact ⟨c, by simp [hc], hliteral⟩

/-- Every node writes at least one character of its own. -/
theorem size_le_length_text (h : tree.Canonical) : tree.size ≤ tree.text.length := by
  induction h with
  | literal l => exact List.length_pos_of_ne_nil l.text_ne_nil
  | parentheses _ ih =>
    simp only [size, sizeAll, text_parentheses, List.length_cons, List.length_append,
      List.length_nil]
    omega
  | @operation operator children hlength _ _ ih =>
    have hsum : (children.map size).sum ≤ ((children.map text).map List.length).sum := by
      rw [List.map_map]
      exact List.sum_le_sum ih
    have := length_intercalate operator.symbol (map_text_ne_nil (by omega : 0 < children.length))
    rw [size, sizeAll_eq, text_operation]
    rw [List.length_map] at this
    omega

end Tree.Canonical

end ExprTree
