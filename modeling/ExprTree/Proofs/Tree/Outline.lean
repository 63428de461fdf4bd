import ExprTree.Proofs.Tree.Canonical
import ExprTree.Proofs.Tree.Preorder

/-!
# Outlines read backwards

An outline has a row for each node of the tree in preorder: its depth in tabs and its text. No
text contains a tab or a line break, so that the lines can be told apart and give the depths and
the contents back. The depths give the tree back, since everything beneath a node stands deeper
than the node, and what comes after it does not.
-/

namespace ExprTree

/-- The tabs, the text and the line break that a node is written as. -/
def line (row : Nat × Content) : String :=
  "".pushn '\t' row.1 ++ row.2.text ++ "\n"

theorem toList_line (row : Nat × Content) :
    (line row).toList = List.replicate row.1 '\t' ++ (row.2.text.toList ++ ['\n']) := by
  simp [line, Tree.toList_pushn]

/-- Where two lists come apart is determined by what goes on before and stops there. -/
theorem append_inj_of_stops {α : Type} {p : α → Prop} {a b s t : List α}
    (ha : ∀ x ∈ a, p x) (hb : ∀ x ∈ b, p x) (hs : ∀ x ∈ s.head?, ¬ p x)
    (ht : ∀ x ∈ t.head?, ¬ p x) (h : a ++ s = b ++ t) : a = b ∧ s = t := by
  induction a generalizing b with
  | nil =>
    cases b with
    | nil => exact ⟨rfl, h⟩
    | cons y b =>
      rw [List.nil_append] at h
      subst h
      exact absurd (hb y List.mem_cons_self) (hs y rfl)
  | cons x a ih =>
    cases b with
    | nil =>
      rw [List.nil_append] at h
      subst h
      exact absurd (ha x List.mem_cons_self) (ht x rfl)
    | cons y b =>
      obtain ⟨rfl, htail⟩ := List.cons.inj h
      obtain ⟨rfl, hst⟩ := ih (fun z hz => ha z (List.mem_cons_of_mem _ hz))
        (fun z hz => hb z (List.mem_cons_of_mem _ hz)) htail
      exact ⟨rfl, hst⟩

/-! ## Texts of contents -/

namespace Content

theorem text_ne_nil (content : Content) : content.text.toList ≠ [] := by
  cases content with
  | literal l => exact l.text_ne_nil
  | compound kind => rcases kind with (_ | _) | _ <;> decide

theorem ne_of_mem_text {content : Content} {c : Char} (h : c ∈ content.text.toList) :
    c ≠ '\t' ∧ c ≠ '\n' := by
  cases content with
  | literal l =>
    have hc := l.isLiteralChar_of_mem h
    constructor <;> rintro rfl <;> revert hc <;> decide
  | compound kind =>
    have hc : c = '+' ∨ c = '*' ∨ c = '(' ∨ c = ')' := by
      rcases kind with (_ | _) | _ <;> simp_all [text, Compound.token, Operator.symbol]
    rcases hc with rfl | rfl | rfl | rfl <;> decide

/-- A token is not the text of a literal. -/
theorem token_ne_text (kind : Compound) (l : Literal) : kind.token ≠ l.text := by
  intro h
  have hvalid := l.valid
  rw [← h] at hvalid
  revert hvalid
  rcases kind with (_ | _) | _ <;> decide

theorem text_inj {content other : Content} : content.text = other.text ↔ content = other := by
  constructor
  · intro h
    cases content with
    | literal l =>
      cases other with
      | literal l' =>
        cases l
        cases l'
        cases h
        rfl
      | compound kind => exact absurd h.symm (token_ne_text kind l)
    | compound kind =>
      cases other with
      | literal l => exact absurd h (token_ne_text kind l)
      | compound kind' =>
        rcases kind with (_ | _) | _ <;> rcases kind' with (_ | _) | _ <;>
          first | rfl | exact absurd h (by decide)
  · rintro rfl
    rfl

end Content

/-- The lines can be told apart. -/
theorem line_append_inj {row row' : Nat × Content} {s t : List Char}
    (h : (line row).toList ++ s = (line row').toList ++ t) : row = row' ∧ s = t := by
  obtain ⟨depth, content⟩ := row
  obtain ⟨depth', content'⟩ := row'
  -- The tabs end where the text starts, and the text ends with the line.
  have hstart : ∀ (content : Content) (s : List Char),
      ∀ c ∈ (content.text.toList ++ (['\n'] ++ s)).head?, c ≠ '\t' := by
    intro content s c hc
    obtain ⟨first, rest, htext⟩ := List.exists_cons_of_ne_nil content.text_ne_nil
    rw [htext] at hc
    obtain rfl : first = c := by simpa using hc
    exact (Content.ne_of_mem_text (htext ▸ List.mem_cons_self)).1
  simp only [toList_line, List.append_assoc] at h
  obtain ⟨hdepth, hback⟩ := append_inj_of_stops (p := (· = '\t'))
    (fun c => List.eq_of_mem_replicate) (fun c => List.eq_of_mem_replicate)
    (hstart content s) (hstart content' t) h
  obtain ⟨htext, hend⟩ := append_inj_of_stops (p := (· ≠ '\n'))
    (fun c hc => (Content.ne_of_mem_text hc).2) (fun c hc => (Content.ne_of_mem_text hc).2)
    (by simp) (by simp) hback
  obtain rfl := Content.text_inj.mp (String.toList_inj.mp htext)
  obtain rfl : depth = depth' := by simpa using congrArg List.length hdepth
  exact ⟨rfl, (List.cons.inj hend).2⟩

theorem line_ne_nil (row : Nat × Content) : (line row).toList ≠ [] := by
  rw [toList_line]
  exact List.append_ne_nil_of_right_ne_nil _ (List.append_ne_nil_of_right_ne_nil _ (by simp))

/-- The lines of an outline give its rows back. -/
theorem eq_of_join_map_line {rows rows' : List (Nat × Content)}
    (h : String.join (rows.map line) = String.join (rows'.map line)) : rows = rows' := by
  rw [← String.toList_inj, String.toList_join, String.toList_join, List.flatMap_map,
    List.flatMap_map] at h
  induction rows generalizing rows' with
  | nil =>
    cases rows' with
    | nil => rfl
    | cons row' rest' => exact absurd (List.append_eq_nil_iff.mp h.symm).1 (line_ne_nil row')
  | cons row rest ih =>
    cases rows' with
    | nil => exact absurd (List.append_eq_nil_iff.mp h).1 (line_ne_nil row)
    | cons row' rest' =>
      rw [List.flatMap_cons, List.flatMap_cons] at h
      obtain ⟨rfl, hrest⟩ := line_append_inj h
      rw [ih hrest]

namespace Tree

/-- The depths and the contents of the nodes in preorder. -/
def rows (depth : Nat) (tree : Tree) : List (Nat × Content) :=
  (tree.preorder depth).map fun row => (row.1, row.2.content)

@[simp] theorem rows_literal (depth : Nat) (l : Literal) :
    (literal l).rows depth = [(depth, .literal l)] := by
  simp [rows, content]

@[simp] theorem rows_compound (depth : Nat) (kind : Compound) (children : List Tree) :
    (compound kind children).rows depth =
      (depth, .compound kind) :: children.flatMap (rows (depth + 1)) := by
  simp [rows, content, List.map_flatMap]
  rfl

theorem rows_eq (depth : Nat) (tree : Tree) :
    tree.rows depth = (depth, tree.content) :: tree.children.flatMap (rows (depth + 1)) := by
  cases tree <;> simp [content, children]

/-- Nothing in a tree stands higher than its root. -/
theorem le_of_mem_rows {depth : Nat} {tree : Tree} {row : Nat × Content}
    (h : row ∈ tree.rows depth) : depth ≤ row.1 := by
  induction tree generalizing depth with
  | literal l =>
    rw [rows_literal, List.mem_singleton] at h
    rw [h]
  | compound kind children ih =>
    rw [rows_compound, List.mem_cons, List.mem_flatMap] at h
    rcases h with rfl | ⟨child, hchild, h⟩
    · exact Nat.le_refl _
    · exact Nat.le_of_succ_le (ih child hchild h)

theorem lines_eq (depth : Nat) (tree : Tree) :
    tree.lines depth = String.join ((tree.rows depth).map line) := by
  induction tree generalizing depth with
  | literal l => simp [line, Content.text]
  | compound kind children ih =>
    rw [lines_compound, rows_compound, List.map_cons, String.join_cons, List.map_flatMap,
      List.map_congr_left fun child hchild => ih child hchild (depth + 1)]
    simp [← String.toList_inj, List.flatMap_map, List.flatMap_assoc, line, Content.text]

/-! ## Rows -/

/-- What comes first in the rows of some trees is the root of one of them. -/
theorem eq_of_mem_head?_rows {depth : Nat} {trees : List Tree} {row : Nat × Content}
    (h : row ∈ (trees.flatMap (rows depth)).head?) : row.1 = depth := by
  cases trees with
  | nil => cases h
  | cons tree rest =>
    rw [List.flatMap_cons, rows_eq, List.cons_append, List.head?_cons, Option.mem_some_iff] at h
    rw [← h]

/-- The tree can be recovered from its rows, whatever comes after them, provided that it stands
no deeper than the root. -/
def Recoverable (tree : Tree) : Prop :=
  ∀ ⦃tree' : Tree⦄ ⦃depth depth' : Nat⦄ ⦃rest rest' : List (Nat × Content)⦄,
    (∀ row ∈ rest.head?, row.1 ≤ depth) → (∀ row ∈ rest'.head?, row.1 ≤ depth') →
    tree.rows depth ++ rest = tree'.rows depth' ++ rest' →
    depth = depth' ∧ tree = tree' ∧ rest = rest'

theorem flatMap_rows_inj {depth : Nat} {trees trees' : List Tree}
    (hrecoverable : ∀ tree ∈ trees, tree.Recoverable)
    (h : trees.flatMap (rows depth) = trees'.flatMap (rows depth)) : trees = trees' := by
  induction trees generalizing trees' with
  | nil =>
    cases trees' with
    | nil => rfl
    | cons tree' rest' =>
      rw [List.flatMap_cons, rows_eq] at h
      cases h
  | cons tree rest ih =>
    cases trees' with
    | nil =>
      rw [List.flatMap_cons, rows_eq] at h
      cases h
    | cons tree' rest' =>
      obtain ⟨hfirst, hlater⟩ := List.forall_mem_cons.mp hrecoverable
      obtain ⟨-, rfl, hrest⟩ := hfirst (fun row hrow => (eq_of_mem_head?_rows hrow).le)
        (fun row hrow => (eq_of_mem_head?_rows hrow).le) h
      rw [ih hlater hrest]

theorem recoverable (tree : Tree) : tree.Recoverable := by
  induction tree with
  | literal l =>
    intro tree' depth depth' rest rest' _ _ h
    rw [rows_literal, rows_eq depth' tree'] at h
    obtain ⟨hrow, hback⟩ := List.cons.inj h
    obtain ⟨rfl, hcontent⟩ := Prod.mk.inj hrow
    cases tree' with
    | literal l' =>
      cases hcontent
      exact ⟨rfl, rfl, hback⟩
    | compound kind children => cases hcontent
  | compound kind children ih =>
    intro tree' depth depth' rest rest' hrest hrest' h
    rw [rows_compound, rows_eq depth' tree'] at h
    obtain ⟨hrow, hback⟩ := List.cons.inj h
    obtain ⟨rfl, hcontent⟩ := Prod.mk.inj hrow
    cases tree' with
    | literal l => cases hcontent
    | compound kind' children' =>
      cases hcontent
      -- The rows beneath the root are the longest front of what follows that is deeper.
      have hdeeper : ∀ trees : List Tree, ∀ row ∈ trees.flatMap (rows (depth + 1)),
          depth < row.1 := by
        intro trees row hmem
        obtain ⟨tree, -, hmem⟩ := List.mem_flatMap.mp hmem
        exact le_of_mem_rows hmem
      obtain ⟨hbelow, hafter⟩ := append_inj_of_stops (p := fun row => depth < row.1)
        (hdeeper children) (hdeeper children') (fun row hmem => Nat.not_lt.mpr (hrest row hmem))
        (fun row hmem => Nat.not_lt.mpr (hrest' row hmem)) hback
      obtain rfl : children = children' := flatMap_rows_inj ih hbelow
      exact ⟨rfl, rfl, hafter⟩

theorem rows_inj {tree tree' : Tree} {depth depth' : Nat}
    (h : tree.rows depth = tree'.rows depth') : depth = depth' ∧ tree = tree' := by
  have happend : tree.rows depth ++ [] = tree'.rows depth' ++ [] := by rw [h]
  obtain ⟨hdepth, htree, -⟩ := tree.recoverable (by simp) (by simp) happend
  exact ⟨hdepth, htree⟩

/-! ## Outlines -/

theorem lines_eq_outline (tree : Tree) (indent : Nat) : tree.lines indent =
    if tree.content.isCompound then tree.outline indent else tree.outline indent ++ "\n" := by
  cases tree <;> rfl

theorem getLast?_lines (tree : Tree) (indent : Nat) :
    (tree.lines indent).toList.getLast? = some '\n' := by
  have hne : tree.rows indent ≠ [] := by simp [rows_eq]
  rw [lines_eq, ← List.dropLast_concat_getLast hne, List.map_append, String.join_append]
  simp [toList_line]

/-- Only the outline of a literal alone ends without a line break. -/
theorem getLast?_outline (tree : Tree) (indent : Nat) :
    (tree.outline indent).toList.getLast? = some '\n' ↔ tree.content.isCompound = true := by
  cases tree with
  | literal l =>
    have hlast : l.text.toList.getLast l.text_ne_nil ∈ (Content.literal l).text.toList :=
      List.getLast_mem l.text_ne_nil
    rw [outline, String.toList_append, List.getLast?_append_of_ne_nil _ l.text_ne_nil,
      List.getLast?_eq_some_getLast l.text_ne_nil, Option.some_inj]
    exact iff_of_false (Content.ne_of_mem_text hlast).2 Bool.false_ne_true
  | compound kind children => exact iff_of_true (getLast?_lines _ indent) rfl

/-- An outline determines the tree, and the depth at which it starts. -/
theorem outline_inj {tree tree' : Tree} {indent indent' : Nat} :
    tree.outline indent = tree'.outline indent' ↔ indent = indent' ∧ tree = tree' := by
  constructor
  · intro h
    have hkind : tree.content.isCompound = tree'.content.isCompound := by
      rw [Bool.eq_iff_iff, ← getLast?_outline tree indent, h, getLast?_outline]
    have hlines : tree.lines indent = tree'.lines indent' := by
      rw [lines_eq_outline, lines_eq_outline, h, hkind]
    rw [lines_eq, lines_eq] at hlines
    exact rows_inj (eq_of_join_map_line hlines)
  · rintro ⟨rfl, rfl⟩
    rfl

end Tree
end ExprTree
