import ExprTree.Proofs.Tree.Form

/-!
# Reading and writing trees

What is read from a text is a canonical tree with that text, and every canonical
tree is read back from its text. The first holds of every fragment, balanced or
not, since it is the success of all parts that counts: a text that is cut inside of
parentheses leaves a part behind which is not balanced, and no such part is ever read.
-/

namespace ExprTree.Tree

open Run

/-- To go deeper than the text is long makes no difference. -/
theorem parseWithin_eq_parse {s : List Char} {depth : Nat} (h : s.length < depth) :
    parseWithin depth s = parse s := by
  rw [parse, parseWithin_eq_readWithin, parseWithin_eq_readWithin]
  exact readWithin_eq_of_lt (fun _ hne => hne) h (Nat.lt_succ_self _)

/-- With all positions chosen, the operands of a chain are its pieces. -/
theorem readWithin_id_chain {s : List Char} {depth : Nat} {level : Int} {operator : Operator}
    (hany : s.any isLiteralChar = true) (hliteral : Literal.ofChars? s = none)
    (hwrapped : ¬ isWrapped s = true) (hshallow : Shallowest s level operator) (log : Log) :
    readWithin id (depth + 1) s log =
      ((pieces operator level s).mapM (readWithin id depth) >>= fun children =>
          pure (.compound (.operation operator) children))
        (log.push (.splitting (String.ofList s) (pieces operator level s).length operator)) :=
  readWithin_chain hany hliteral hwrapped hshallow (Split.operands_occurrences operator level s) log

/-! ## Reading is sound -/

private theorem eq_map_of_mapM {read : List Char → Traced ParseFailure Tree}
    (hread : ∀ {s log tree log'}, read s log = .ok tree log' → tree.Canonical ∧ tree.text = s)
    {parts : List (List Char)} {log log' : Log} {trees : List Tree}
    (h : parts.mapM read log = .ok trees log') :
    parts = trees.map text ∧ ∀ tree ∈ trees, tree.Canonical := by
  induction parts generalizing log trees with
  | nil =>
    obtain ⟨rfl, -⟩ := mapM_nil_eq_ok_iff.mp h
    exact ⟨rfl, by simp⟩
  | cons part rest ih =>
    obtain ⟨tree, others, middle, hfirst, hrest, rfl⟩ := mapM_cons_eq_ok_iff.mp h
    obtain ⟨hcanonical, htext⟩ := hread hfirst
    obtain ⟨hothers, hall⟩ := ih hrest
    exact ⟨by rw [List.map_cons, htext, hothers], List.forall_mem_cons.mpr ⟨hcanonical, hall⟩⟩

/-- Pieces that are all texts of canonical trees were cut outside of parentheses, and
are the operands of a canonical chain. -/
theorem canonical_of_pieces {s : List Char} {level : Int} {operator : Operator}
    {children : List Tree} (hshallow : Shallowest s level operator)
    (hpieces : pieces operator level s = children.map text)
    (hcanonical : ∀ child ∈ children, child.Canonical) :
    (compound (.operation operator) children).Canonical ∧
      (compound (.operation operator) children).text = s := by
  have htext : (compound (.operation operator) children).text = s := by
    rw [text_operation, ← hpieces, intercalate_pieces]
  have hlength : 2 ≤ children.length := by
    obtain ⟨i, hi⟩ := stands_iff_mem_occurrences.mp hshallow.stands
    have := List.length_pos_of_mem hi
    rw [← List.length_map text, ← hpieces, length_pieces]
    omega
  rw [← htext] at hshallow
  obtain rfl := Canonical.level_eq_zero hlength hcanonical hshallow
  -- The scan found all occurrences at depth zero, so no operand has one of its own.
  have hclear : ∀ child ∈ children, ¬ Stands operator 0 child.text := by
    obtain ⟨child, rest, rfl⟩ := List.exists_cons_of_length_pos (by omega : 0 < children.length)
    obtain ⟨hfirst, hrest⟩ := pieces_clear hpieces
    exact List.forall_mem_cons.mpr
      ⟨hfirst, fun later hlater => hrest later.text (List.mem_map_of_mem hlater)⟩
  refine ⟨.operation hlength ?_ hcanonical, htext⟩
  intro child hchild
  exact Canonical.admits_of_shallowest hcanonical hshallow hchild
    ((hcanonical child hchild).absorbs_eq_false_of_not_stands (hclear child hchild))

/-- What is read from a fragment is a canonical tree, and its text is the fragment. -/
theorem canonical_of_parseWithin {depth : Nat} {s : List Char} {log log' : Log} {tree : Tree}
    (h : parseWithin depth s log = .ok tree log') : tree.Canonical ∧ tree.text = s := by
  rw [parseWithin_eq_readWithin] at h
  induction depth generalizing s log tree log' with
  | zero => cases h
  | succ depth ih =>
    cases form s with
    | barren hany =>
      rw [readWithin_barren hany] at h
      cases h
    | literal l hl =>
      rw [readWithin_literal hl] at h
      cases h
      exact ⟨.literal l, Literal.text_of_ofChars? hl⟩
    | wrapped inner hs hinner hany =>
      subst hs
      rw [readWithin_wrapped hinner hany] at h
      obtain ⟨content, middle, hread, hpure⟩ := bind_eq_ok_iff.mp h
      obtain ⟨rfl, -⟩ := pure_eq_ok_iff.mp hpure
      obtain ⟨hcanonical, rfl⟩ := ih hread
      exact ⟨.parentheses hcanonical, text_parentheses content⟩
    | chain level operator hany hliteral hwrapped hshallow =>
      rw [readWithin_id_chain hany hliteral hwrapped hshallow] at h
      obtain ⟨children, middle, hread, hpure⟩ := bind_eq_ok_iff.mp h
      obtain ⟨rfl, -⟩ := pure_eq_ok_iff.mp hpure
      obtain ⟨hpieces, hcanonical⟩ := eq_map_of_mapM ih hread
      exact canonical_of_pieces hshallow hpieces hcanonical
    | stuck hany hliteral hwrapped hnone =>
      rw [readWithin_stuck hany hliteral hwrapped hnone] at h
      cases h

private theorem heightAll_le_of_mapM {read : List Char → Traced ParseFailure Tree} {depth : Nat}
    (hread : ∀ {s log tree log'}, read s log = .ok tree log' → tree.height ≤ depth)
    {parts : List (List Char)} {log log' : Log} {trees : List Tree}
    (h : parts.mapM read log = .ok trees log') : heightAll trees ≤ depth := by
  induction parts generalizing log trees with
  | nil =>
    obtain ⟨rfl, -⟩ := mapM_nil_eq_ok_iff.mp h
    exact Nat.zero_le depth
  | cons part rest ih =>
    obtain ⟨tree, others, middle, hfirst, hrest, rfl⟩ := mapM_cons_eq_ok_iff.mp h
    exact Nat.max_le.mpr ⟨hread hfirst, ih hrest⟩

/-- Every call makes one node, so a tree is no higher than the recursion is deep. -/
theorem height_le_of_parseWithin {depth : Nat} {s : List Char} {log log' : Log} {tree : Tree}
    (h : parseWithin depth s log = .ok tree log') : tree.height ≤ depth := by
  rw [parseWithin_eq_readWithin] at h
  induction depth generalizing s log tree log' with
  | zero => cases h
  | succ depth ih =>
    cases form s with
    | barren hany =>
      rw [readWithin_barren hany] at h
      cases h
    | literal l hl =>
      rw [readWithin_literal hl] at h
      cases h
      exact Nat.le_add_left 1 depth
    | wrapped inner hs hinner hany =>
      subst hs
      rw [readWithin_wrapped hinner hany] at h
      obtain ⟨content, middle, hread, hpure⟩ := bind_eq_ok_iff.mp h
      obtain ⟨rfl, -⟩ := pure_eq_ok_iff.mp hpure
      simpa [height, heightAll] using ih hread
    | chain level operator hany hliteral hwrapped hshallow =>
      rw [readWithin_id_chain hany hliteral hwrapped hshallow] at h
      obtain ⟨children, middle, hread, hpure⟩ := bind_eq_ok_iff.mp h
      obtain ⟨rfl, -⟩ := pure_eq_ok_iff.mp hpure
      exact Nat.succ_le_succ (heightAll_le_of_mapM ih hread)
    | stuck hany hliteral hwrapped hnone =>
      rw [readWithin_stuck hany hliteral hwrapped hnone] at h
      cases h

/-! ## Every canonical tree is read -/

mutual

/-- The records of reading a tree, a node before its children. -/
def splittings : Tree → List Record
  | .literal _ => []
  | .compound .parentheses children => allSplittings children
  | .compound (.operation operator) children =>
    .splitting (compound (.operation operator) children).inline children.length operator ::
      allSplittings children

def allSplittings : List Tree → List Record
  | [] => []
  | tree :: rest => tree.splittings ++ allSplittings rest

end

private theorem mapM_text {read : List Char → Traced ParseFailure Tree} {children : List Tree}
    (hread : ∀ child ∈ children, ∀ log, read child.text log = .ok child (log ++ child.splittings))
    (log : Log) :
    (children.map text).mapM read log = .ok children (log ++ allSplittings children) := by
  induction children generalizing log with
  | nil => simp [allSplittings, pure_eq_ok_iff]
  | cons child rest ih =>
    obtain ⟨hfirst, hrest⟩ := List.forall_mem_cons.mp hread
    have hlog : log ++ allSplittings (child :: rest) =
        log ++ child.splittings ++ allSplittings rest := by
      simp [allSplittings, ← Array.toList_inj]
    rw [List.map_cons, hlog]
    exact mapM_cons_eq_ok_iff.mpr ⟨child, rest, _, hfirst log, ih hrest _, rfl⟩

/-- A canonical tree is read back from its text when the recursion may go as deep as
the tree is high. -/
theorem parseWithin_text {tree : Tree} (h : tree.Canonical) {depth : Nat}
    (hdepth : tree.height ≤ depth) (log : Log) :
    parseWithin depth tree.text log = .ok tree (log ++ tree.splittings) := by
  rw [parseWithin_eq_readWithin]
  induction h generalizing depth log with
  | literal l =>
    obtain ⟨depth, rfl⟩ : ∃ d, depth = d + 1 := Nat.exists_eq_add_of_le' hdepth
    rw [text_literal, readWithin_literal (Literal.ofChars?_toList l)]
    simp [splittings]
  | @parentheses inner hinner ih =>
    obtain ⟨depth, rfl⟩ : ∃ d, depth = d + 1 :=
      Nat.exists_eq_add_of_le' (Nat.le_trans (height_pos _) hdepth)
    have hdepth : inner.height ≤ depth := by simpa [height, heightAll] using hdepth
    have hany := List.any_eq_true.mpr hinner.exists_isLiteralChar
    rw [text_parentheses, readWithin_wrapped hinner.balanced hany, bind_of_ok (ih hdepth log)]
    simp [splittings, allSplittings, pure_eq_ok_iff]
  | @operation operator children hlength hadmits hcanonical ih =>
    have hself : Canonical (.compound (.operation operator) children) :=
      .operation hlength hadmits hcanonical
    obtain ⟨depth, rfl⟩ : ∃ d, depth = d + 1 :=
      Nat.exists_eq_add_of_le' (Nat.le_trans (height_pos _) hdepth)
    have hdepth : ∀ child ∈ children, child.height ≤ depth := by
      rwa [height, Nat.add_le_add_iff_right, heightAll_le_iff] at hdepth
    obtain ⟨hany, hliteral, hwrapped⟩ := hself.form_operation
    have hchildren := mapM_text (fun child hchild => ih child hchild (hdepth child hchild))
    rw [readWithin_id_chain hany hliteral hwrapped hself.shallowest, hself.pieces_text,
      bind_of_ok (hchildren _)]
    simp [splittings, text, pure_eq_ok_iff]

/-- A text without blanks is read exactly when it is the text of a canonical tree, and
the tree that is read is that tree. -/
theorem parse_eq_ok_iff {s : List Char} {log log' : Log} {tree : Tree} :
    parse s log = .ok tree log' ↔
      tree.Canonical ∧ tree.text = s ∧ log' = log ++ tree.splittings := by
  constructor
  · intro h
    obtain ⟨hcanonical, rfl⟩ := canonical_of_parseWithin h
    have hdepth : tree.height ≤ tree.text.length + 1 :=
      (tree.height_le_size.trans hcanonical.size_le_length_text).trans (Nat.le_succ _)
    rw [parse, parseWithin_text hcanonical hdepth] at h
    cases h
    exact ⟨hcanonical, rfl, rfl⟩
  · rintro ⟨hcanonical, rfl, rfl⟩
    have hdepth : tree.height ≤ tree.text.length + 1 :=
      (tree.height_le_size.trans hcanonical.size_le_length_text).trans (Nat.le_succ _)
    exact parseWithin_text hcanonical hdepth log

/-- A text is the text of one canonical tree at most. -/
theorem Canonical.eq_of_text_eq {s t : Tree} (hs : s.Canonical) (ht : t.Canonical)
    (h : s.text = t.text) : s = t := by
  have hread : parse t.text #[] = .ok s (#[] ++ s.splittings) := parse_eq_ok_iff.mpr ⟨hs, h, rfl⟩
  rw [parse_eq_ok_iff.mpr ⟨ht, rfl, rfl⟩] at hread
  cases hread
  rfl

end ExprTree.Tree
