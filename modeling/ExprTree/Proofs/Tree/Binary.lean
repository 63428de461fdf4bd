import ExprTree.Proofs.Tree.Flat
import ExprTree.Proofs.Tree.Reading

/-!
# Splitting in two

A reader that splits a chain at the first of its operators only has two operands to read,
the second of which may be the rest of the chain. The tree that it reads leans to the
right. In it, an operator merges its second operand but never its first one, which has no
such operator outside of parentheses. So the operands that flattening appends were the
last ones before, and the flat tree is the one that all cuts at once lead to.
-/

namespace ExprTree.Tree

open Run

/-- The tree of a text without blanks, where every split is in two. -/
def parseBinary (s : List Char) : Traced ParseFailure Tree :=
  readWithin (List.take 1) (s.length + 1) s

/-! ## Merging two operands -/

/-- Two operands of an operator become a canonical chain, when the first one may stand
there as it is and the second one may do so or is merged. -/
theorem canonical_merge_pair {operator : Operator} {left right : Tree} (hleft : left.Canonical)
    (hright : right.Canonical) (hadmits : operator.admits left.content = true)
    (hkept : (Content.compound (.operation operator)).absorbs right.content = false →
      operator.admits right.content = true) :
    (merge (.operation operator) [left, right]).Canonical ∧
      (merge (.operation operator) [left, right]).text =
        left.text ++ operator.symbol :: right.text := by
  have hfirst : (Compound.operation operator).merges left = false := by
    rw [Compound.merges_eq_absorbs, Operator.absorbs_eq_false hadmits]
  cases hmerges : (Compound.operation operator).merges right with
  | false =>
    have hmerge : merge (.operation operator) [left, right] =
        .compound (.operation operator) [left, right] := by
      simp [merge, hfirst, hmerges]
    rw [hmerge]
    refine ⟨.operation (Nat.le_refl 2) ?_ ?_, by simp⟩
    · simpa [hadmits] using hkept (by rw [← Compound.merges_eq_absorbs, hmerges])
    · simp [hleft, hright]
  | true =>
    have hmerge : merge (.operation operator) [left, right] =
        .compound (.operation operator) (left :: right.children) := by
      simp [merge, hfirst, hmerges]
    have heq := eq_compound_of_merges hmerges
    generalize right.children = operands at heq hmerge
    subst heq
    rw [hmerge]
    cases hright with
    | operation hlength hoperands hcanonical =>
      refine ⟨.operation (by simp; omega) ?_ ?_, ?_⟩
      · exact List.forall_mem_cons.mpr ⟨hadmits, hoperands⟩
      · exact List.forall_mem_cons.mpr ⟨hleft, hcanonical⟩
      · rw [text_operation, text_operation, List.map_cons,
          List.intercalate_cons_of_ne_nil (map_text_ne_nil (by omega))]
        simp

/-- A text that was cut in two at the first of its shallowest operators is the text of the
merged node, if the parts are texts of canonical trees. -/
theorem canonical_of_cut {level : Int} {operator : Operator} {left right : Tree}
    (hleft : left.Canonical) (hright : right.Canonical)
    (hshallow : Shallowest (left.text ++ operator.symbol :: right.text) level operator)
    (hclear : ¬ Stands operator level left.text) :
    (merge (.operation operator) [left, right]).Canonical ∧
      (merge (.operation operator) [left, right]).text =
        left.text ++ operator.symbol :: right.text := by
  have hcanonical : ∀ child ∈ [left, right], child.Canonical := by simp [hleft, hright]
  have htext : left.text ++ operator.symbol :: right.text =
      (compound (.operation operator) [left, right]).text := by simp
  have hlength : 2 ≤ [left, right].length := Nat.le_refl 2
  rw [htext] at hshallow
  -- Balanced parts leave no place for a cut inside of parentheses.
  obtain rfl := Canonical.level_eq_zero hlength hcanonical hshallow
  apply canonical_merge_pair hleft hright
  · exact Canonical.admits_of_shallowest hcanonical hshallow (by simp)
      (hleft.absorbs_eq_false_of_not_stands hclear)
  · exact Canonical.admits_of_shallowest hcanonical hshallow (by simp)

/-! ## What is read -/

private theorem mapM_pair_eq_ok_iff {read : List Char → Traced ParseFailure Tree}
    {left right : List Char} {log log' : Log} {trees : List Tree} :
    [left, right].mapM read log = .ok trees log' ↔ ∃ first second middle,
      read left log = .ok first middle ∧ read right middle = .ok second log' ∧
      trees = [first, second] := by
  simp only [mapM_cons_eq_ok_iff, mapM_nil_eq_ok_iff]
  constructor
  · rintro ⟨first, _, middle, hfirst, ⟨second, _, _, hsecond, ⟨rfl, rfl⟩, rfl⟩, rfl⟩
    exact ⟨first, second, middle, hfirst, hsecond, rfl⟩
  · rintro ⟨first, second, middle, hfirst, hsecond, rfl⟩
    exact ⟨first, [second], middle, hfirst, ⟨second, [], _, hsecond, ⟨rfl, rfl⟩, rfl⟩, rfl⟩

/-- Flattened, the tree that is read from a fragment is canonical and has the fragment as its
text. As it is, it has no more nodes than the fragment has characters. -/
theorem flat_of_readWithin_first {depth : Nat} {s : List Char} {log log' : Log} {tree : Tree}
    (h : readWithin (List.take 1) depth s log = .ok tree log') :
    tree.flat.Canonical ∧ tree.flat.text = s ∧ tree.size ≤ s.length := by
  induction depth generalizing s log tree log' with
  | zero => cases h
  | succ depth ih =>
    cases form s with
    | barren hany =>
      rw [readWithin_barren hany] at h
      cases h
    | literal l hl =>
      rw [readWithin_literal hl] at h
      cases h
      obtain rfl := Literal.text_of_ofChars? hl
      rw [flat_literal]
      exact ⟨.literal l, rfl, (Canonical.literal l).size_le_length_text⟩
    | wrapped inner hs hinner hany =>
      subst hs
      rw [readWithin_wrapped hinner hany] at h
      obtain ⟨content, middle, hread, hpure⟩ := bind_eq_ok_iff.mp h
      obtain ⟨rfl, -⟩ := pure_eq_ok_iff.mp hpure
      obtain ⟨hcanonical, htext, hsize⟩ := ih hread
      rw [flat_compound, merge_parentheses, List.map_singleton, text_parentheses, htext]
      refine ⟨.parentheses hcanonical, rfl, ?_⟩
      simp only [size, sizeAll, List.length_cons, List.length_append, List.length_nil]
      omega
    | chain level operator hany hliteral hwrapped hshallow =>
      obtain ⟨left, right, rfl, rfl, hclear, hoperands⟩ :=
        Split.exists_operands_first hshallow.stands
      rw [readWithin_chain hany hliteral hwrapped hshallow hoperands] at h
      obtain ⟨trees, middle, hread, hpure⟩ := bind_eq_ok_iff.mp h
      obtain ⟨rfl, -⟩ := pure_eq_ok_iff.mp hpure
      obtain ⟨first, second, between, hfirst, hsecond, rfl⟩ := mapM_pair_eq_ok_iff.mp hread
      obtain ⟨hleft, rfl, hsizeLeft⟩ := ih hfirst
      obtain ⟨hright, rfl, hsizeRight⟩ := ih hsecond
      obtain ⟨hcanonical, htext⟩ := canonical_of_cut hleft hright hshallow hclear
      rw [flat_compound, List.map_cons, List.map_singleton, htext]
      refine ⟨hcanonical, rfl, ?_⟩
      simp only [size, sizeAll, List.length_cons, List.length_append]
      omega
    | stuck hany hliteral hwrapped hnone =>
      rw [readWithin_stuck hany hliteral hwrapped hnone] at h
      cases h

/-! ## Every canonical tree is read -/

/-- Behind the first operand of a canonical chain stands the second one, or a chain of the
later ones. -/
theorem Canonical.exists_rest {operator : Operator} {first : Tree} {rest : List Tree}
    (h : Canonical (.compound (.operation operator) (first :: rest))) :
    ∃ later : Tree, later.Canonical ∧
      later.text = List.intercalate [operator.symbol] (rest.map text) := by
  cases h with
  | operation hlength hadmits hcanonical =>
    obtain ⟨-, hrest⟩ := List.forall_mem_cons.mp hcanonical
    match rest with
    | [] => simp at hlength
    | [second] => exact ⟨second, hrest second List.mem_cons_self, by simp⟩
    | second :: third :: rest =>
      refine ⟨.compound (.operation operator) (second :: third :: rest), ?_, text_operation _ _⟩
      exact .operation (by simp) (List.forall_mem_cons.mp hadmits).2 hrest

/-- The first cut through the text of a canonical chain is between texts of canonical trees. -/
theorem Canonical.exists_cut {operator : Operator} {children : List Tree}
    (h : Canonical (.compound (.operation operator) children)) :
    ∃ first later : Tree, first.Canonical ∧ later.Canonical ∧
      (compound (.operation operator) children).text =
        first.text ++ operator.symbol :: later.text ∧
      Split.operands ⟨operator,
          (occurrences operator 0 (compound (.operation operator) children).text).take 1⟩
        (compound (.operation operator) children).text = .ok [first.text, later.text] := by
  obtain ⟨left, right, htext, hnet, hclear, hoperands⟩ := Split.exists_operands_first h.stands
  have hpieces := h.pieces_text
  rw [htext, pieces_append hclear hnet] at hpieces
  obtain ⟨first, rest, rfl, rfl, hright⟩ := List.map_eq_cons_iff.mp hpieces.symm
  obtain ⟨later, hlater, hlaterText⟩ := h.exists_rest
  rw [hright, intercalate_pieces] at hlaterText
  subst hlaterText
  exact ⟨first, later, (h.of_mem List.mem_cons_self).1, hlater, htext, hoperands⟩

/-- A canonical tree can be read from its text when the recursion may go as deep as the text
is long. -/
theorem exists_readWithin_first {tree : Tree} (h : tree.Canonical) {depth : Nat}
    (hdepth : tree.text.length < depth) (log : Log) :
    ∃ binary log', readWithin (List.take 1) depth tree.text log = .ok binary log' := by
  induction depth generalizing tree log with
  | zero => omega
  | succ depth ih =>
    have hself := h
    cases h with
    | literal l =>
      exact ⟨_, _, readWithin_literal (Literal.ofChars?_toList l) log⟩
    | @parentheses inner hinner =>
      rw [text_parentheses] at hdepth ⊢
      simp only [List.length_cons, List.length_append, List.length_nil] at hdepth
      obtain ⟨binary, log', hread⟩ := ih hinner (by omega) log
      rw [readWithin_wrapped hinner.balanced (List.any_eq_true.mpr hinner.exists_isLiteralChar),
        bind_of_ok hread]
      exact ⟨_, _, rfl⟩
    | @operation operator children _ _ _ =>
      obtain ⟨hany, hliteral, hwrapped⟩ := hself.form_operation
      obtain ⟨first, later, hfirst, hlater, htext, hoperands⟩ := hself.exists_cut
      rw [htext, List.length_append, List.length_cons] at hdepth
      obtain ⟨left, middle, hread⟩ := ih hfirst (by omega) (log.push (.splitting _ 2 operator))
      obtain ⟨right, log', hread'⟩ := ih hlater (by omega) middle
      refine ⟨.compound (.operation operator) [left, right], log', ?_⟩
      rw [readWithin_chain hany hliteral hwrapped hself.shallowest hoperands]
      exact bind_eq_ok_iff.mpr ⟨_, _, mapM_pair_eq_ok_iff.mpr ⟨_, _, _, hread, hread', rfl⟩, rfl⟩

/-- A canonical tree is what its text is read as, once the tree with the splits in two is
flattened. -/
theorem exists_parseBinary {tree : Tree} (h : tree.Canonical) (log : Log) :
    ∃ binary log', parseBinary tree.text log = .ok binary log' ∧ binary.flat = tree ∧
      binary.size ≤ tree.text.length := by
  obtain ⟨binary, log', hread⟩ := exists_readWithin_first h (Nat.lt_succ_self _) log
  obtain ⟨hcanonical, htext, hsize⟩ := flat_of_readWithin_first hread
  exact ⟨binary, log', hread, hcanonical.eq_of_text_eq h htext, hsize⟩

/-- Before it is flattened, the tree leans to the right. -/
example : ∃ log, parseBinary ['a', '+', 'b', '+', 'c'] #[] = .ok (.compound (.operation .add)
    [.literal ⟨"a", by decide⟩, .compound (.operation .add)
      [.literal ⟨"b", by decide⟩, .literal ⟨"c", by decide⟩]]) log :=
  ⟨_, rfl⟩

end ExprTree.Tree
