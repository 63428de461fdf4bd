import ExprTree.Proofs.Grammar
import ExprTree.Proofs.Parsing

/-!
# The language that is read

The accepted texts are the derivable ones, written with the characters of the
alphabet and any blanks between them. The reader does not follow the grammar: it
may cut a text inside of parentheses. It then always fails on one of the parts.
-/

namespace ExprTree

theorem isAllowed_iff {c : Char} :
    isAllowed c = true ↔
      isBlank c = true ∨ c.isDigit = true ∨ c.isLower = true ∨ c ∈ ['+', '*', '(', ')'] := by
  simp [isAllowed, isLiteralChar, or_assoc]

theorem exists_readAs_iff {text : List Char} :
    (∃ tree, ReadAs text tree) ↔
      (∀ c ∈ text, isAllowed c = true) ∧ Derives .E (withoutBlanks text) := by
  rw [derives_iff_exists_canonical]
  constructor
  · rintro ⟨tree, h⟩
    exact ⟨h.allowed, tree, h.canonical, h.text_eq⟩
  · rintro ⟨hallowed, tree, hcanonical, htext⟩
    exact ⟨tree, hallowed, hcanonical, htext⟩

/-- A text with operators which stands for a tree shows one outside of parentheses, or is
wrapped in parentheses as a whole. -/
theorem ReadAs.stands_or_isWrapped {text : List Char} {tree : Tree} (h : ReadAs text tree)
    {operator : Operator} {level : Int} (hs : Stands operator level (withoutBlanks text)) :
    (∃ operator, Stands operator 0 (withoutBlanks text)) ∨
      isWrapped (withoutBlanks text) = true := by
  have hcanonical := h.canonical
  rw [← h.text_eq] at hs ⊢
  cases hcanonical with
  | literal l =>
    exact absurd rfl (symbol_ne_of_isLiteralChar (l.isLiteralChar_of_mem hs.mem) operator)
  | parentheses hinner =>
    exact .inr (isWrapped_iff.mpr ⟨_, Tree.text_parentheses _, hinner.balanced⟩)
  | operation _ _ _ => exact .inl ⟨_, h.canonical.stands⟩

namespace Expression

/-- A text is accepted exactly when its characters are allowed and it is derivable without
its blanks. A text which would be cut inside of parentheses is never accepted. -/
theorem parse_accepts_iff_derives (text : String) (hlength : text.length ≤ 2 ^ 32) (log : Log) :
    ((∃ e log', parse text log = .ok e log') ↔
      (∀ c ∈ text.toList, isBlank c = true ∨ c.isDigit = true ∨ c.isLower = true ∨
        c ∈ ['+', '*', '(', ')']) ∧
      Derives .E (withoutBlanks text.toList)) ∧
    ∀ split, Split.shallowest? (withoutBlanks text.toList) = some split →
      (∀ operator, ¬ Stands operator 0 (withoutBlanks text.toList)) →
      ¬ isWrapped (withoutBlanks text.toList) = true →
      ∃ failure log', parse text log = .error failure log' := by
  refine ⟨?_, ?_⟩
  · rw [accepts_iff_readAs hlength, exists_readAs_iff]
    simp only [isAllowed_iff]
  · intro split hsplit hnone hwrapped
    cases hparse : parse text log with
    | error failure log' => exact ⟨failure, log', rfl⟩
    | ok e log' =>
      obtain ⟨tree, htree⟩ := (accepts_iff_readAs hlength).mp ⟨e, log', hparse⟩
      obtain ⟨level, hshallow, -⟩ := Split.shallowest?_eq_some_iff.mp hsplit
      cases htree.stands_or_isWrapped hshallow.stands with
      | inl hstands =>
        obtain ⟨operator, hs⟩ := hstands
        exact absurd hs (hnone operator)
      | inr hwrapped' => exact absurd hwrapped' hwrapped

/-- A product with a blank in it is accepted. An operator inside of parentheses is no place
to cut at, although the reader tries. -/
theorem parse_accepts_product_not_application :
    ("2 *x".length ≤ 2 ^ 32 ∧ ∃ e log', parse "2 *x" #[] = .ok e log') ∧
      "x(y+z)".length ≤ 2 ^ 32 ∧ ∃ failure log', parse "x(y+z)" #[] = .error failure log' := by
  have htwo : Derives .M ['2'] :=
    .factor (.literal (.digits (List.cons_ne_nil _ _) (List.all_eq_true.mp rfl)))
  have hx : Derives .M ['x'] := .factor (.literal (.letter (by decide)))
  have hproduct : Derives .E (withoutBlanks "2 *x".toList) :=
    .sum (.summand (.multiply htwo hx))
  have hnone : ∀ operator, ¬ Stands operator 0 (withoutBlanks "x(y+z)".toList) := by
    intro operator hs
    obtain ⟨i, hi⟩ := stands_iff_mem_occurrences.mp hs
    have hempty : occurrences operator 0 (withoutBlanks "x(y+z)".toList) = [] := by
      cases operator <;> decide
    rw [hempty] at hi
    cases hi
  have hallowed : ∀ c ∈ "2 *x".toList, isAllowed c = true := List.all_eq_true.mp rfl
  refine ⟨⟨by decide, ?_⟩, by decide, ?_⟩
  · exact (parse_accepts_iff_derives "2 *x" (by decide) #[]).1.mpr
      ⟨fun c hc => isAllowed_iff.mp (hallowed c hc), hproduct⟩
  · exact (parse_accepts_iff_derives "x(y+z)" (by decide) #[]).2 ⟨.add, [3]⟩ rfl hnone (by decide)

end Expression
end ExprTree
