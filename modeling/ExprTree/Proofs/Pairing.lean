import ExprTree.Proofs.Bytewise.Reader

/-!
# Parentheses and their partners

Three parts of reading look at parentheses. The balance of a text is a count which must not go
below zero; the test for wrapping stops at the first partner that it finds for the opening
parenthesis; the reader takes wrapping parentheses off and cuts at operators, even at one
inside of parentheses. Each of them would do something with any text, balanced or not. They
agree all the same: the wrapped texts are the balanced ones between two parentheses, and what
the reader accepts is balanced.
-/

namespace ExprTree

variable {s : List Char}

theorem isBalanced_iff_count :
    isBalanced s = true ↔ s.count '(' = s.count ')' ∧
      ∀ before, before <+: s → before.count ')' ≤ before.count '(' :=
  isBalanced_iff.trans balanced_iff_count

theorem isWrapped_iff_isBalanced :
    isWrapped s = true ↔ ∃ inner, s = '(' :: (inner ++ [')']) ∧ isBalanced inner = true := by
  simp only [isWrapped_iff, isBalanced_iff]

theorem Tree.balanced_of_parseWithin {depth : Nat} {tree : Tree} {log log' : Log}
    (h : parseWithin depth s log = .ok tree log') : Balanced s := by
  obtain ⟨hcanonical, rfl⟩ := canonical_of_parseWithin h
  exact hcanonical.balanced

namespace Bytewise

open Run Edit

theorem checkBalance_eq_ok_iff (h : IsAscii s) (hlength : s.length < 2 ^ 64) (input : String) :
    checkBalance input 0 (bytes (String.ofList s)) = .ok () ↔ isBalanced s = true := by
  rw [bytes_ofList h, checkBalance_eq h input 0 (by omega), isBalanced]
  split <;> simp_all

/-- When all operands were read, so was each of them. -/
theorem exists_call_of_readAll {call : String → Edit Stop NodeId} {op : NodeId}
    {operands : List (List Char)} {draft draft' : Draft}
    (h : readAll call op operands draft = .ok () draft') {operand : List Char}
    (hmem : operand ∈ operands) :
    ∃ before id after, call (String.ofList operand) before = .ok id after := by
  induction operands generalizing draft with
  | nil => cases hmem
  | cons first rest ih =>
    rw [readAll, bind_eq_ok_iff] at h
    obtain ⟨id, middle, hfirst, h⟩ := h
    obtain ⟨-, next, -, hrest⟩ := bind_eq_ok_iff.mp h
    rcases List.mem_cons.mp hmem with rfl | hmem
    · exact ⟨draft, id, middle, hfirst⟩
    · exact ih hrest hmem

/-- A call accepts balanced texts only, provided that calls on shorter ones do. -/
theorem balanced_of_readStep {call : String → Edit Stop NodeId} (h : IsAscii s)
    (hlength : s.length < 2 ^ 63)
    (hcall : ∀ part, part.length < s.length → IsAscii part → ∀ before id after,
      call (String.ofList part) before = .ok id after → Balanced part)
    {draft draft' : Draft} {id : NodeId}
    (hread : readStep call (String.ofList s) draft = .ok id draft') : Balanced s := by
  cases form s with
  | barren hbarren =>
    rw [readStep, if_pos (by simpa [any_isLiteralByte h] using hbarren)] at hread
    cases hread
  | literal l hl =>
    rw [← Literal.text_of_ofChars? hl]
    exact (Tree.Canonical.literal l).balanced
  | wrapped inner hs hinner _ =>
    subst hs
    exact hinner.wrap
  | chain level operator hliteral hnone hwrapped hshallow =>
    -- the cuts may be inside of parentheses, but then one of the pieces is not accepted
    rw [readStep_chain h hliteral hnone hwrapped hshallow hlength, bind_eq_ok_iff] at hread
    obtain ⟨op, middle, -, hread⟩ := hread
    obtain ⟨_, last, hall, -⟩ := bind_eq_ok_iff.mp hread
    have hpieces : ∀ piece ∈ pieces operator level s, Balanced piece := fun piece hpiece => by
      obtain ⟨before, id, after, hone⟩ := exists_call_of_readAll hall hpiece
      exact hcall piece (length_lt_of_mem_pieces hshallow.stands hpiece) (h.piece hpiece) _ _ _ hone
    rw [← intercalate_pieces operator level s]
    exact Balanced.intercalate hpieces
  | stuck hliteral hnone hwrapped hstuck =>
    rw [readStep_stuck h hliteral hnone hwrapped hstuck hlength] at hread
    cases hread

/-- Whatever was read before, only balanced texts are accepted. -/
theorem balanced_of_read (h : IsAscii s) (hlength : s.length < 2 ^ 63) {draft draft' : Draft}
    {id : NodeId} (hread : read (String.ofList s) draft = .ok id draft') : Balanced s := by
  induction hn : s.length using Nat.strongRecOn generalizing s draft draft' id with
  | ind n ih =>
    rw [read] at hread
    refine balanced_of_readStep h hlength (fun part hpart hascii before id after hone => ?_) hread
    split at hone
    · exact ih part.length (hn ▸ hpart) hascii (by omega) hone rfl
    · cases hone

/-- A text that has a tree is read in bytes and words too, if there is room for its nodes. -/
theorem exists_read_of_parse (h : IsAscii s) (hlength : s.length ≤ 2 ^ 32) {tree : Tree}
    {log log' : Log} (hparse : Tree.parse s log = .ok tree log') :
    ∃ id draft, read (String.ofList s) ⟨Expression.empty, log⟩ = .ok id draft := by
  have hagrees := plants_read h ⟨Expression.empty, log⟩ ((Nat.zero_add _).trans_le hlength)
  rw [hparse] at hagrees
  obtain ⟨id, draft, hread, -⟩ := hagrees
  exact ⟨id, draft, hread⟩

end Bytewise

/-- The wrapped texts are the balanced ones between two parentheses. A text is balanced when it
opens as many parentheses as it closes and closes none that it has not opened. Every call
of the reader that succeeds, at any depth of its recursion, is on a balanced text. In bytes
and words the three of them are the same. -/
theorem wrapping_agrees_with_balance (s : List Char) :
    (isWrapped s = true ↔ ∃ inner, s = '(' :: (inner ++ [')']) ∧ isBalanced inner = true) ∧
      (isBalanced s = true ↔ s.count '(' = s.count ')' ∧
        ∀ before, before <+: s → before.count ')' ≤ before.count '(') ∧
      (∀ depth tree log log', Tree.parseWithin depth s log = .ok tree log' →
        isBalanced s = true) ∧
      (Bytewise.IsAscii s → s.length < 2 ^ 63 →
        Bytewise.wrapped (String.ofList s) = .ok (isWrapped s) ∧
        (∀ input, Bytewise.checkBalance input 0 (Bytewise.bytes (String.ofList s)) = .ok () ↔
          isBalanced s = true) ∧
        ∀ draft id draft', Bytewise.read (String.ofList s) draft = .ok id draft' →
          isBalanced s = true) := by
  refine ⟨isWrapped_iff_isBalanced, isBalanced_iff_count, ?_, fun hascii hlength => ?_⟩
  · intro depth tree log log' hread
    exact isBalanced_iff.mpr (Tree.balanced_of_parseWithin hread)
  · refine ⟨Bytewise.wrapped_eq hascii (by omega),
      Bytewise.checkBalance_eq_ok_iff hascii (by omega), ?_⟩
    intro draft id draft' hread
    exact isBalanced_iff.mpr (Bytewise.balanced_of_read hascii hlength hread)

/-- The last parenthesis is not the partner of the first one: a product of two operands in
parentheses is read, hence balanced, but it is not wrapped. -/
theorem wrapping_differs_from_balance :
    Bytewise.IsAscii "(x)*(y)".toList ∧ "(x)*(y)".toList.length < 2 ^ 63 ∧
      (∃ tree log, Tree.parse "(x)*(y)".toList #[] = .ok tree log) ∧
      (∃ id draft, Bytewise.read "(x)*(y)" ⟨Expression.empty, #[]⟩ = .ok id draft) ∧
      isBalanced "(x)*(y)".toList = true ∧ Bytewise.wrapped "(x)*(y)" = .ok false := by
  have hproduct : Tree.Canonical (.compound (.operation .multiply)
      [.compound .parentheses [.literal ⟨"x", by decide⟩],
        .compound .parentheses [.literal ⟨"y", by decide⟩]]) :=
    .operation (by decide) (by simp [Tree.content, Operator.admits])
      (by simp [Tree.Canonical.parentheses, Tree.Canonical.literal])
  have hparse : Tree.parse "(x)*(y)".toList #[] = .ok _ _ :=
    Tree.parse_eq_ok_iff.mpr ⟨hproduct, rfl, rfl⟩
  have hall : "(x)*(y)".toList.all (·.toNat < 128) = true := rfl
  have hascii : Bytewise.IsAscii "(x)*(y)".toList := fun c hc =>
    of_decide_eq_true (List.all_eq_true.mp hall c hc)
  have hlength : "(x)*(y)".toList.length < 2 ^ 63 := by decide
  obtain ⟨id, draft, hread⟩ := Bytewise.exists_read_of_parse hascii (by decide) hparse
  obtain ⟨-, -, hbalanced, hbytes⟩ := wrapping_agrees_with_balance "(x)*(y)".toList
  obtain ⟨hwrapped, -, -⟩ := hbytes hascii hlength
  rw [String.ofList_toList] at hread hwrapped
  exact ⟨hascii, hlength, ⟨_, _, hparse⟩, ⟨id, draft, hread⟩, hbalanced _ _ _ _ hparse, hwrapped⟩

end ExprTree
