import ExprTree.Proofs.Flattening
import ExprTree.Proofs.Parsing
import ExprTree.Proofs.Tree.Binary

/-!
# Splits in two and splits at once

The reader that splits every chain in two and flattens what comes out accepts the same
texts as the reader that makes all cuts at once, and both give the same tree. The tree
that is split in two has more nodes, yet no more than the text has characters.
-/

namespace ExprTree.Expression

/-- Reads a text by splitting in two at the first of its shallowest operators, over and
over, and flattens the expression of the tree that results. -/
def parseBinary (text : String) : Traced ParseFailure Expression :=
  parseBy Tree.parseBinary text

variable {text : String}

/-- The expression of a text that stands for a tree has that tree, after all. -/
theorem exists_parseBinary {tree : Tree} (h : ReadAs text.toList tree)
    (hlength : text.length ≤ 2 ^ 32) (log : Log) :
    ∃ e log', parseBinary text log = .ok e log' ∧ e.tree e.root = .ok tree := by
  obtain ⟨binary, middle, hread, rfl, hsize⟩ := Tree.exists_parseBinary h.canonical log
  rw [h.text_eq] at hread hsize
  have hroom : binary.size ≤ 2 ^ 32 :=
    (hsize.trans (List.length_filter_le _ _)).trans (String.length_toList ▸ hlength)
  obtain ⟨planted, hof, hdense⟩ := exists_ofTree hroom
  have hroom' : planted.size ≤ 2 ^ 32 := hdense.size ▸ hroom
  have hf : (Draft.mk planted middle).Forest := hdense.forest hroom'
  obtain ⟨before, draft, htree, hrun, hflat, hroot⟩ := Edit.tree_flattenBeneath hf hf.root
  obtain rfl := Except.ok.inj ((hdense.tree_eq hroom').symm.trans htree)
  rw [← hroot] at hflat
  exact ⟨draft.toExpression, _, parseBy_eq_ok_iff.mpr ⟨_, binary, middle, planted, draft.log, _,
    h.checkText_eq, hread, hof, hrun, outline_ok hflat 0, rfl⟩, hflat⟩

theorem exists_readAs_of_parseBinary {log log' : Log} {e : Expression}
    (h : parseBinary text log = .ok e log') : ∃ tree, ReadAs text.toList tree := by
  obtain ⟨s, binary, middle, planted, last, outline, hcheck, hread, -⟩ := parseBy_eq_ok_iff.mp h
  obtain ⟨hallowed, -, rfl⟩ := checkText_eq_ok_iff.mp hcheck
  obtain ⟨hcanonical, htext, -⟩ := Tree.flat_of_readWithin_first hread
  exact ⟨binary.flat, hallowed, hcanonical, htext⟩

/-- A text is read by both readers or by neither, and what they read has one outline. -/
theorem parse_agrees_with_parseBinary (text : String) (hlength : text.length ≤ 2 ^ 32)
    (log : Log) :
    ((∃ e log', parse text log = .ok e log') ↔ ∃ e log', parseBinary text log = .ok e log') ∧
      ∀ e e' log₁ log₂, parse text log = .ok e log₁ → parseBinary text log = .ok e' log₂ →
        ∃ outline, e.outline e.root 0 = .ok outline ∧ e'.outline e'.root 0 = .ok outline := by
  constructor
  · rw [accepts_iff_readAs hlength]
    constructor
    · rintro ⟨tree, h⟩
      obtain ⟨e, log', hparse, -⟩ := exists_parseBinary h hlength log
      exact ⟨e, log', hparse⟩
    · rintro ⟨e, log', h⟩
      exact exists_readAs_of_parseBinary h
  · intro e e' log₁ log₂ h h'
    have hroom : e.size ≤ 2 ^ 32 := (size_le_of_parse h).trans hlength
    obtain ⟨tree, hreads, -, hdense⟩ := of_parse_eq_ok h hroom
    obtain ⟨_, _, hparse, htree'⟩ := exists_parseBinary hreads hlength log
    rw [h'] at hparse
    cases hparse
    exact ⟨tree.outline 0, outline_ok (hdense.tree_eq hroom) 0, outline_ok htree' 0⟩

/-- Three operands, which the one reader finds at once and the other one after the other. -/
theorem parse_agrees_with_parseBinary_of_sum :
    ∃ e e' log₁ log₂, parse "a+b+c" #[] = .ok e log₁ ∧
      parseBinary "a+b+c" #[] = .ok e' log₂ ∧ e.outline e.root 0 = .ok "+\n\ta\n\tb\n\tc\n" ∧
      e'.outline e'.root 0 = .ok "+\n\ta\n\tb\n\tc\n" := by
  have hreads : ReadAs "a+b+c".toList (.compound (.operation .add)
      [.literal ⟨"a", by decide⟩, .literal ⟨"b", by decide⟩, .literal ⟨"c", by decide⟩]) :=
    ⟨List.all_eq_true.mp rfl, .operation (by decide) (by simp [Tree.content, Operator.admits])
      (by simp [Tree.Canonical.literal]), rfl⟩
  obtain ⟨e, -, hdense, hparse⟩ := exists_parse hreads (by decide) #[]
  obtain ⟨haccepts, hagree⟩ := parse_agrees_with_parseBinary "a+b+c" (by decide) #[]
  obtain ⟨e', log₂, hparse'⟩ := haccepts.mp ⟨e, _, hparse⟩
  obtain ⟨outline, houtline, houtline'⟩ := hagree _ _ _ _ hparse hparse'
  have hshown := outline_ok (hdense.tree_eq (hdense.size.trans_le (by decide))) 0
  obtain rfl := Except.ok.inj (houtline.symm.trans hshown)
  exact ⟨e, e', _, log₂, hparse, hparse', houtline, houtline'⟩

end ExprTree.Expression
