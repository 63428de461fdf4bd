import ExprTree.Proofs.Parsing
import ExprTree.Proofs.Tree.Calls
import Mathlib.Data.List.MinMax

/-!
# Nesting

How deep the reader calls itself depends on the parentheses of a text alone. A call is on the
inside of parentheses, which is less deep, or on an operand, in which the operators that are
left come later in the order of places to split. That order has two places for each depth. The
count holds of texts that are cut inside of parentheses as well: the parts of a text keep
within the depths of the text, wherever they are cut.
-/

namespace ExprTree

open Run ExprTree.Tree

/-- The greatest depth in a text. -/
def deepest (s : List Char) : Nat :=
  (s.inits.map fun before => (net before).toNat).foldr max 0

theorem net_le_deepest {s before : List Char} (h : before <+: s) : net before ≤ deepest s := by
  have hmem : (net before).toNat ∈ s.inits.map fun before => (net before).toNat :=
    List.mem_map_of_mem ((List.mem_inits before s).mpr h)
  have hle : (net before).toNat ≤ deepest s := List.le_max_of_le hmem (Nat.le_refl _)
  omega

/-! ## Texts within bounds -/

/-- The text keeps between two depths, and its operators do not come before a certain rank. -/
structure Confined (s : List Char) (floor ceiling least : Int) : Prop where
  between : ∀ before, before <+: s → floor ≤ net before ∧ net before ≤ ceiling
  rank : ∀ operator level, Stands operator level s → least ≤ operator.rank level
  least_le : least ≤ 2 * ceiling + 2

/-- Reading `s` has room for so many calls within one another: one for each depth that may be
left by taking parentheses off, one for each rank at which it may be split, and the last. -/
def HasRoom (depth : Nat) (s : List Char) : Prop :=
  ∃ floor ceiling least, Confined s floor ceiling least ∧
    (ceiling - floor) + (2 * ceiling + 2 - least) + 1 ≤ depth

namespace Confined

variable {s : List Char} {floor ceiling least : Int}

theorem zero_between (h : Confined s floor ceiling least) : floor ≤ 0 ∧ 0 ≤ ceiling :=
  h.between [] List.nil_prefix

/-- A part that begins at another depth is confined as the text is, seen from that depth. -/
theorem part {before part after : List Char} {rank : Int}
    (h : Confined (before ++ part ++ after) floor ceiling least) (hrank : rank ≤ 2 * ceiling + 2)
    (hranks : ∀ operator level, Stands operator level part →
      rank ≤ operator.rank (level + net before)) :
    Confined part (floor - net before) (ceiling - net before) (rank - 2 * net before) where
  between inner hinner := by
    have := h.between (before ++ inner)
      (((List.prefix_append_right_inj before).mpr hinner).trans (List.prefix_append _ after))
    rw [net_append] at this
    omega
  rank operator level hs := by
    have := hranks operator level hs
    rw [Operator.rank_add] at this
    omega
  least_le := by omega

theorem inside {inner : List Char} (hinner : Balanced inner)
    (h : Confined ('(' :: (inner ++ [')'])) floor ceiling least) :
    Confined inner 0 (ceiling - 1) (least - 2) := by
  have hpart : Confined (['('] ++ inner ++ [')']) floor ceiling least := by simpa using h
  have hconfined := hpart.part h.least_le fun operator level hs =>
    hpart.rank operator _ (Stands.append_iff.mpr (.inl (Stands.append_iff.mpr (.inr (by
      simpa using hs)))))
  refine ⟨fun before hbefore => ⟨hinner.staysAbove before hbefore, ?_⟩, ?_, ?_⟩
  · simpa using (hconfined.between before hbefore).2
  · simpa using hconfined.rank
  · simpa using hconfined.least_le

/-- In a piece, the ranks come after the one at which the text was cut. -/
theorem piece {level : Int} {operator : Operator} (hshallow : Shallowest s level operator)
    {piece : List Char} (hpiece : piece ∈ pieces operator level s)
    (h : Confined s floor ceiling least) :
    ∃ offset, Confined piece (floor - offset) (ceiling - offset)
      (operator.rank level + 1 - 2 * offset) := by
  obtain ⟨before, after, rfl, -, hclear⟩ := exists_place_of_mem_pieces hpiece
  refine ⟨net before, h.part ?_ ?_⟩
  · obtain ⟨front, back, hs, rfl⟩ := hshallow.stands
    have := operator.rank_le (net front)
    have := (h.between front ⟨_, hs.symm⟩).2
    omega
  · intro other depth hs
    have hstands : Stands other (depth + net before) (before ++ piece ++ after) :=
      Stands.append_iff.mpr (.inl (Stands.append_iff.mpr (.inr (by simpa using hs))))
    have hle := hshallow.rank_le hstands
    have hne : operator.rank level ≠ other.rank (depth + net before) := by
      intro hsame
      obtain ⟨rfl, rfl⟩ := Operator.rank_inj.mp hsame
      exact hclear (by simpa using hs)
    omega

end Confined

namespace HasRoom

variable {s : List Char} {depth : Nat}

/-- A balanced text has room for three calls for each of its depths. -/
theorem of_balanced (h : Balanced s) : HasRoom (3 * (deepest s + 1)) s := by
  refine ⟨0, deepest s, 0, ⟨fun before hbefore => ?_, fun operator level hs => ?_, by omega⟩,
    by omega⟩
  · exact ⟨h.staysAbove before hbefore, net_le_deepest hbefore⟩
  · have := hs.floor_le h.staysAbove
    cases operator <;> simp only [Operator.rank] <;> omega

theorem pos (h : HasRoom depth s) : 0 < depth := by
  obtain ⟨floor, ceiling, least, hconfined, hdepth⟩ := h
  have := hconfined.zero_between
  have := hconfined.least_le
  omega

theorem inside {inner : List Char} (hinner : Balanced inner)
    (h : HasRoom (depth + 1) ('(' :: (inner ++ [')']))) : HasRoom depth inner := by
  obtain ⟨floor, ceiling, least, hconfined, hdepth⟩ := h
  have := hconfined.zero_between
  exact ⟨_, _, _, hconfined.inside hinner, by omega⟩

theorem piece {level : Int} {operator : Operator} (hshallow : Shallowest s level operator)
    {piece : List Char} (hpiece : piece ∈ pieces operator level s) (h : HasRoom (depth + 1) s) :
    HasRoom depth piece := by
  obtain ⟨floor, ceiling, least, hconfined, hdepth⟩ := h
  obtain ⟨offset, hoffset⟩ := hconfined.piece hshallow hpiece
  have := hconfined.rank operator level hshallow.stands
  exact ⟨_, _, _, hoffset, by omega⟩

/-- Every call takes one from the room. -/
theorem of_calls {part : List Char} {start : Nat} (hcall : Calls s start part)
    (h : HasRoom (depth + 1) s) : HasRoom depth part := by
  rcases hcall.exists_form with ⟨-, rfl, hinner, -⟩ | ⟨level, operator, front, back, -, -, -,
    hshallow, hpieces, -, -⟩
  · exact h.inside hinner
  · exact h.piece hshallow (by simp [hpieces])

end HasRoom

/-! ## Nested calls -/

/-- Reading `s` has so many calls open at some time, the first of which is the one on `s`. -/
inductive OpensCalls : List Char → Nat → Prop where
  | alone (s : List Char) : OpensCalls s 1
  | call {s part : List Char} {start count : Nat} :
      Calls s start part → OpensCalls part count → OpensCalls s (count + 1)

theorem HasRoom.opensCalls_le {s : List Char} {depth count : Nat} (h : HasRoom depth s)
    (hcalls : OpensCalls s count) : count ≤ depth := by
  induction hcalls generalizing depth with
  | alone s => exact h.pos
  | call hcall _ ih =>
    obtain ⟨depth, rfl⟩ : ∃ d, depth = d + 1 := Nat.exists_eq_add_of_le' h.pos
    exact Nat.succ_le_succ (ih (h.of_calls hcall))

/-- A recursion that is as deep as there is room for reads as any deeper one does. -/
theorem HasRoom.parseWithin_eq {s : List Char} {depth : Nat} (h : HasRoom depth s) :
    parseWithin depth s = parse s := by
  induction depth generalizing s with
  | zero => exact absurd h.pos (Nat.lt_irrefl 0)
  | succ depth ih =>
    funext log
    cases form s with
    | barren hany => rw [parseWithin_eq_readWithin, readWithin_barren hany, parse_barren hany]
    | literal l hl => rw [parseWithin_eq_readWithin, readWithin_literal hl, parse_literal hl]
    | wrapped inner hs hinner hany =>
      subst hs
      rw [parseWithin_eq_readWithin, readWithin_wrapped hinner hany, ← parseWithin_eq_readWithin,
        ih (h.inside hinner), parse_wrapped hinner hany]
    | chain level operator hany hliteral hwrapped hshallow =>
      have hparts : (pieces operator level s).mapM (parseWithin depth) =
          (pieces operator level s).mapM parse :=
        mapM_congr fun piece hpiece => ih (h.piece hshallow hpiece)
      rw [parseWithin_eq_readWithin, readWithin_id_chain hany hliteral hwrapped hshallow,
        ← parseWithin_eq_readWithin, hparts, parse_chain hany hliteral hwrapped hshallow]
    | stuck hany hliteral hwrapped hnone =>
      rw [parseWithin_eq_readWithin, readWithin_stuck hany hliteral hwrapped hnone,
        parse_stuck hany hliteral hwrapped hnone]

/-! ## The bound -/

namespace Expression

variable {text : String} {e : Expression} {tree : Tree}

/-- Whatever follows the children of a canonical tree needs as many levels as the tree has. -/
theorem Dense.levels (h : e.Dense tree) (hroom : e.size ≤ 2 ^ 32) (hcanonical : tree.Canonical)
    {levels : Nat} (hlevels : tree.height ≤ levels) (log : Log) :
    e.treeWithin levels e.root = .ok tree ∧
      Edit.flattenWithin levels e.root ⟨e, log⟩ = .ok () ⟨e, log⟩ := by
  have hheight : (tree.number 0).height ≤ levels := by rwa [Tree.height_number]
  have htree := h.stored.treeWithin_eq hheight
  rw [Tree.tree_number, h.id_number_eq] at htree
  exact ⟨htree, flattenWithin_of_dense hcanonical h hroom hheight⟩

/-- Whether a text is accepted or not, the calls that are open while it is read are at most three
for each depth of its parentheses, however many operators it has. A recursion of that depth
never runs out. The tree of an accepted text has no more levels than that, so that the same
depth is enough to look at it and to flatten it. -/
theorem parse_bounded_by_nesting (hlength : text.length ≤ 2 ^ 32)
    (hbalanced : isBalanced (withoutBlanks text.toList) = true) :
    (∀ count, OpensCalls (withoutBlanks text.toList) count →
      count ≤ 3 * (deepest (withoutBlanks text.toList) + 1)) ∧
    parseWithin (3 * (deepest (withoutBlanks text.toList) + 1)) (withoutBlanks text.toList) =
      Tree.parse (withoutBlanks text.toList) ∧
    (∀ log log', Tree.parse (withoutBlanks text.toList) log ≠ .error (.fault .tooDeep) log') ∧
    ∀ log e log', parse text log = .ok e log' → ∃ tree, e.tree e.root = .ok tree ∧
      tree.height ≤ 3 * (deepest (withoutBlanks text.toList) + 1) ∧
      e.treeWithin (3 * (deepest (withoutBlanks text.toList) + 1)) e.root = .ok tree ∧
      Edit.flattenWithin (3 * (deepest (withoutBlanks text.toList) + 1)) e.root ⟨e, log'⟩ =
        .ok () ⟨e, log'⟩ := by
  have hroom := HasRoom.of_balanced (isBalanced_iff.mp hbalanced)
  refine ⟨fun count => hroom.opensCalls_le, hroom.parseWithin_eq, ?_, ?_⟩
  · intro log log' hfails
    obtain ⟨_, _, error, -, -, hrejected⟩ := (Tree.parse_error_iff log).mp ⟨log', hfails⟩
    cases hrejected
  · intro log e log' hparse
    have hsize : e.size ≤ 2 ^ 32 := (size_le_of_parse hparse).trans hlength
    obtain ⟨tree, hreads, -, hdense⟩ := of_parse_eq_ok hparse hsize
    have hread : Tree.parse (withoutBlanks text.toList) log =
        .ok tree (log ++ tree.splittings) :=
      Tree.parse_eq_ok_iff.mpr ⟨hreads.canonical, hreads.text_eq, rfl⟩
    have hheight := height_le_of_parseWithin ((congrFun hroom.parseWithin_eq log).trans hread)
    obtain ⟨htree, hflat⟩ := hdense.levels hsize hreads.canonical hheight log'
    exact ⟨tree, hdense.tree_eq hsize, hheight, htree, hflat⟩

/-- Without parentheses there are three levels: a sum, a product in it and a literal in that. -/
theorem parse_bounded_by_nesting_of_sum :
    ∃ e log' tree, parse "1+x*y" #[] = .ok e log' ∧ deepest "1+x*y".toList = 0 ∧
      e.treeWithin 3 e.root = .ok tree ∧ tree.height = 3 := by
  have hproduct : (Tree.compound (.operation .multiply)
      [.literal ⟨"x", by decide⟩, .literal ⟨"y", by decide⟩]).Canonical :=
    .operation (by decide) (by simp [Tree.content, Operator.admits])
      (by simp [Tree.Canonical.literal])
  have hreads : ReadAs "1+x*y".toList (.compound (.operation .add)
      [.literal ⟨"1", by decide⟩, .compound (.operation .multiply)
        [.literal ⟨"x", by decide⟩, .literal ⟨"y", by decide⟩]]) :=
    ⟨List.all_eq_true.mp rfl, .operation (by decide) (by simp [Tree.content, Operator.admits])
      (by simp [Tree.Canonical.literal, hproduct]), rfl⟩
  obtain ⟨e, -, hdense, hparse⟩ := exists_parse hreads (by decide) #[]
  have hlength : "1+x*y".length ≤ 2 ^ 32 := by decide
  obtain ⟨tree, htree, -, hwithin, -⟩ :=
    (parse_bounded_by_nesting hlength (by decide)).2.2.2 #[] e _ hparse
  have hsame := hdense.tree_eq (hdense.size ▸ by decide)
  obtain rfl := Except.ok.inj (htree.symm.trans hsame)
  exact ⟨e, _, _, hparse, by decide, hwithin, rfl⟩

end Expression
end ExprTree
