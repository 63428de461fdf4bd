import ExprTree.Proofs.Text.Balance
import ExprTree.Text.Split
import Mathlib.Data.List.Basic

/-!
# The shallowest operator

A text may have an operator at any depth, also at a negative one. The pass which
looks for a place to split remembers only the best operator so far and where it
was found. What it knows after a prefix is a fact about that prefix alone, so the
result has a meaning that does not mention the pass: `Shallowest` is its operator
and `occurrences` are its positions.
-/

namespace ExprTree

theorem Operator.symbol_inj {a b : Operator} : a.symbol = b.symbol ↔ a = b := by
  cases a <;> cases b <;> decide

@[simp] theorem nesting_symbol (operator : Operator) : nesting operator.symbol = 0 := by
  cases operator <;> rfl

/-- The operator occurs in the text at the given depth. -/
def Stands (operator : Operator) (level : Int) (s : List Char) : Prop :=
  ∃ before after, s = before ++ operator.symbol :: after ∧ net before = level

namespace Stands

variable {operator : Operator} {level : Int} {s t : List Char}

theorem mem (h : Stands operator level s) : operator.symbol ∈ s := by
  obtain ⟨before, after, rfl, -⟩ := h
  simp

theorem of_mem (h : operator.symbol ∈ s) : ∃ level, Stands operator level s := by
  obtain ⟨before, after, rfl⟩ := List.append_of_mem h
  exact ⟨net before, before, after, rfl, rfl⟩

@[simp] theorem not_nil : ¬ Stands operator level [] := fun h => by
  simpa using h.mem

theorem append_iff :
    Stands operator level (s ++ t) ↔
      Stands operator level s ∨ Stands operator (level - net s) t := by
  constructor
  · rintro ⟨before, after, hs, rfl⟩
    rcases List.append_eq_append_iff.mp hs with ⟨middle, rfl, ht⟩ | ⟨middle, rfl, ht⟩
    · exact .inr ⟨middle, after, ht, by simp⟩
    · cases middle with
      | nil =>
        refine .inr ⟨[], after, by simpa using ht.symm, by simp⟩
      | cons c middle =>
        obtain ⟨rfl, rfl⟩ := List.cons.inj ht
        exact .inl ⟨before, middle, rfl, rfl⟩
  · rintro (⟨before, after, rfl, rfl⟩ | ⟨before, after, rfl, hlevel⟩)
    · exact ⟨before, after ++ t, by simp, rfl⟩
    · exact ⟨s ++ before, after, by simp, by simp [hlevel]⟩

theorem singleton_iff {c : Char} :
    Stands operator level [c] ↔ c = operator.symbol ∧ level = 0 := by
  constructor
  · rintro ⟨before, after, hc, rfl⟩
    rcases List.cons_eq_append_iff.mp hc with ⟨rfl, h⟩ | ⟨rest, -, h⟩
    · exact ⟨(List.cons.inj h).1.symm, rfl⟩
    · simp at h
  · rintro ⟨rfl, rfl⟩
    exact ⟨[], [], rfl, rfl⟩

theorem cons_iff {c : Char} :
    Stands operator level (c :: s) ↔
      (c = operator.symbol ∧ level = 0) ∨ Stands operator (level - nesting c) s := by
  rw [← List.singleton_append, append_iff, singleton_iff]
  simp

theorem snoc_iff {c : Char} :
    Stands operator level (s ++ [c]) ↔
      Stands operator level s ∨ (c = operator.symbol ∧ net s = level) := by
  rw [append_iff, singleton_iff]
  apply or_congr_right (and_congr_right ?_)
  omega

/-- No operator stands below the floor of a text. -/
theorem floor_le {floor : Int} (h : Stands operator level s) (hs : StaysAbove floor s) :
    floor ≤ level := by
  obtain ⟨before, after, rfl, rfl⟩ := h
  exact hs before ⟨_, rfl⟩

end Stands

/-! ## Positions -/

/-- The positions, in increasing order, at which the operator stands at the given depth. -/
def occurrences (operator : Operator) (level : Int) (s : List Char) : List Nat :=
  (List.range s.length).filter fun i => s[i]? = some operator.symbol ∧ net (s.take i) = level

section Occurrences

variable {operator : Operator} {level : Int} {s : List Char}

@[simp] theorem occurrences_nil : occurrences operator level [] = [] := rfl

theorem mem_occurrences {i : Nat} :
    i ∈ occurrences operator level s ↔ s[i]? = some operator.symbol ∧ net (s.take i) = level := by
  simp only [occurrences, List.mem_filter, List.mem_range, decide_eq_true_eq, and_iff_right_iff_imp]
  exact fun h => (List.getElem?_eq_some_iff.mp h.1).1

theorem occurrences_sorted : (occurrences operator level s).Pairwise (· < ·) :=
  List.Pairwise.filter _ List.pairwise_lt_range

theorem occurrences_cons (c : Char) :
    occurrences operator level (c :: s) =
      (if c = operator.symbol ∧ level = 0 then [0] else []) ++
        (occurrences operator (level - nesting c) s).map (· + 1) := by
  have htail (i : Nat) :
      nesting c + net (s.take i) = level ↔ net (s.take i) = level - nesting c := by
    omega
  rw [occurrences, List.length_cons, List.range_succ_eq_map, List.filter_cons, List.filter_map]
  have hzero : (0 : Int) = level ↔ level = 0 := eq_comm
  split <;> simp_all [occurrences, Function.comp_def]

theorem occurrences_append (t : List Char) :
    occurrences operator level (s ++ t) =
      occurrences operator level s ++
        (occurrences operator (level - net s) t).map (· + s.length) := by
  induction s generalizing level with
  | nil => simp
  | cons c s ih =>
    have hshift : (fun i => i + (s.length + 1)) = (fun i => i + 1) ∘ fun i => i + s.length := by
      funext i
      simp only [Function.comp_apply]
      omega
    rw [List.cons_append, occurrences_cons, ih, occurrences_cons, net_cons, List.map_append,
      List.append_assoc, List.map_map, List.length_cons, hshift, Int.sub_sub]

theorem occurrences_snoc (c : Char) :
    occurrences operator level (s ++ [c]) =
      occurrences operator level s ++
        if c = operator.symbol ∧ net s = level then [s.length] else [] := by
  have hlevel : level - net s = 0 ↔ net s = level := by omega
  rw [occurrences_append, occurrences_cons]
  simp only [hlevel, occurrences_nil, List.map_nil, List.append_nil]
  split <;> simp

theorem stands_iff_mem_occurrences :
    Stands operator level s ↔ ∃ i, i ∈ occurrences operator level s := by
  simp only [mem_occurrences]
  constructor
  · rintro ⟨before, after, rfl, rfl⟩
    exact ⟨before.length, by simp⟩
  · rintro ⟨i, hi, hlevel⟩
    obtain ⟨hlt, hi⟩ := List.getElem?_eq_some_iff.mp hi
    refine ⟨s.take i, s.drop (i + 1), ?_, hlevel⟩
    rw [← hi, List.getElem_cons_drop, List.take_append_drop]

theorem occurrences_eq_nil (h : ¬ Stands operator level s) : occurrences operator level s = [] :=
  List.eq_nil_iff_forall_not_mem.mpr fun i hi => h (stands_iff_mem_occurrences.mpr ⟨i, hi⟩)

end Occurrences

/-- What a split looks for: an operator at the least depth of all, and a sum before a product. -/
structure Shallowest (s : List Char) (level : Int) (operator : Operator) : Prop where
  stands : Stands operator level s
  least : ∀ other depth, Stands other depth s → level ≤ depth
  sum_first : Stands .add level s → operator = .add

/-- Where an operator stands in the order of places to split: the depth first, and then the sum
before the product. -/
def Operator.rank (operator : Operator) (level : Int) : Int :=
  match operator with
  | .add => 2 * level
  | .multiply => 2 * level + 1

theorem Operator.rank_inj {a b : Operator} {level level' : Int} :
    a.rank level = b.rank level' ↔ a = b ∧ level = level' := by
  cases a <;> cases b <;> simp [rank] <;> omega

/-- Ranks count from the depth at which the text begins. -/
theorem Operator.rank_add (operator : Operator) (level offset : Int) :
    operator.rank (level + offset) = operator.rank level + 2 * offset := by
  cases operator <;> simp [rank] <;> omega

theorem Operator.rank_le (operator : Operator) (level : Int) :
    operator.rank level ≤ 2 * level + 1 := by
  cases operator <;> simp [rank]

/-- The shallowest operator has the least rank of all. -/
theorem Shallowest.rank_le {s : List Char} {level : Int} {operator : Operator}
    (h : Shallowest s level operator) {other : Operator} {depth : Int}
    (hs : Stands other depth s) : operator.rank level ≤ other.rank depth := by
  have hle := h.least other depth hs
  cases other with
  | add =>
    by_cases hsame : level = depth
    · subst hsame
      rw [h.sum_first hs]
    · have := operator.rank_le level
      simp only [Operator.rank] at this ⊢
      omega
  | multiply =>
    have := operator.rank_le level
    simp only [Operator.rank] at this ⊢
    omega

theorem Shallowest.unique {s : List Char} {level level' : Int} {operator operator' : Operator}
    (h : Shallowest s level operator) (h' : Shallowest s level' operator') :
    level = level' ∧ operator = operator' :=
  (Operator.rank_inj.mp (Int.le_antisymm (h.rank_le h'.stands) (h'.rank_le h.stands))).symm

/-- An operator that is neither shallower nor a sum beside a product changes nothing. -/
theorem Shallowest.snoc {s : List Char} {level : Int} {operator new : Operator}
    (h : Shallowest s level operator) (hle : level ≤ net s)
    (hbeside : level = net s → new = .add → operator = .add) :
    Shallowest (s ++ [new.symbol]) level operator where
  stands := Stands.snoc_iff.mpr (.inl h.stands)
  least other depth hs := by
    rcases Stands.snoc_iff.mp hs with hs | ⟨-, rfl⟩
    · exact h.least other depth hs
    · exact hle
  sum_first hs := by
    rcases Stands.snoc_iff.mp hs with hs | ⟨hsymbol, hlevel⟩
    · exact h.sum_first hs
    · exact hbeside hlevel.symm (Operator.symbol_inj.mp hsymbol)

theorem Shallowest.snoc_of_ne {s : List Char} {level : Int} {operator : Operator} {c : Char}
    (h : Shallowest s level operator) (hc : ∀ operator : Operator, c ≠ operator.symbol) :
    Shallowest (s ++ [c]) level operator where
  stands := Stands.snoc_iff.mpr (.inl h.stands)
  least other depth hs := by
    cases Stands.snoc_iff.mp hs with
    | inl hs => exact h.least other depth hs
    | inr hs => exact absurd hs.1 (hc other)
  sum_first hs := by
    cases Stands.snoc_iff.mp hs with
    | inl hs => exact h.sum_first hs
    | inr hs => exact absurd hs.1 (hc .add)

/-- An operator above all others, or a sum beside products, is the new shallowest one. -/
theorem shallowest_snoc {s : List Char} {operator : Operator}
    (habove : ∀ other depth, Stands other depth s →
      net s ≤ depth ∧ (net s = depth → operator = .add ∧ other = .multiply)) :
    Shallowest (s ++ [operator.symbol]) (net s) operator where
  stands := Stands.snoc_iff.mpr (.inr ⟨rfl, rfl⟩)
  least other depth hs := by
    cases Stands.snoc_iff.mp hs with
    | inl hs => exact (habove other depth hs).1
    | inr hs => exact Int.le_of_eq hs.2
  sum_first hs := by
    cases Stands.snoc_iff.mp hs with
    | inl hs => exact ((habove .add _ hs).2 rfl).1
    | inr hs => exact Operator.symbol_inj.mp hs.1

/-! ## The pass -/

namespace Split.Scan

theorem improves_iff {scan : Scan} {operator : Operator} :
    scan.improves operator = true ↔ ∀ level best, scan.best = some (level, best) →
      scan.depth < level ∨ (operator = .add ∧ scan.depth = level ∧ best = .multiply) := by
  unfold improves
  split <;> rename_i hbest <;> simp [hbest, and_assoc]

/-- What the pass knows when it has read `s`. -/
structure Describes (scan : Scan) (s : List Char) : Prop where
  position : scan.position = s.length
  depth : scan.depth = net s
  nowhere : scan.best = none → ∀ operator level, ¬ Stands operator level s
  shallowest : ∀ level operator, scan.best = some (level, operator) →
    Shallowest s level operator ∧ scan.found.toList = occurrences operator level s

theorem describes_start : Describes start [] where
  position := rfl
  depth := rfl
  nowhere _ _ _ := Stands.not_nil
  shallowest _ _ h := by simp [start] at h

namespace Describes

variable {scan : Scan} {s : List Char}

/-- A character which is no operator changes the depth and nothing else. -/
theorem pass {c : Char} (h : Describes scan s) (hc : ∀ operator : Operator, c ≠ operator.symbol) :
    Describes { scan with depth := scan.depth + nesting c }.advance (s ++ [c]) where
  position := by simp [advance, h.position]
  depth := by simp [advance, h.depth]
  nowhere hbest operator level hs := by
    cases Stands.snoc_iff.mp hs with
    | inl hs => exact h.nowhere hbest operator level hs
    | inr hs => exact hc operator hs.1
  shallowest level operator hbest := by
    obtain ⟨hshallow, hfound⟩ := h.shallowest level operator hbest
    refine ⟨hshallow.snoc_of_ne hc, ?_⟩
    rw [occurrences_snoc, if_neg fun hs => hc operator hs.1, List.append_nil]
    exact hfound

/-- An operator which improves on the best so far stands above all before it, except
that a sum may stand beside products. -/
theorem of_improves {operator : Operator} (h : Describes scan s)
    (himproves : scan.improves operator = true) {other : Operator} {depth : Int}
    (hs : Stands other depth s) :
    net s ≤ depth ∧ (net s = depth → operator = .add ∧ other = .multiply) := by
  rw [improves_iff, h.depth] at himproves
  cases hbest : scan.best with
  | none => exact absurd hs (h.nowhere hbest other depth)
  | some found =>
    obtain ⟨level, best⟩ := found
    obtain ⟨hshallow, -⟩ := h.shallowest level best hbest
    have hle : level ≤ depth := hshallow.least other depth hs
    rcases himproves level best hbest with hlt | ⟨rfl, rfl, rfl⟩
    · exact ⟨by omega, fun _ => by omega⟩
    · refine ⟨hle, fun hdepth => ⟨rfl, ?_⟩⟩
      subst hdepth
      cases other with
      | add => exact absurd (hshallow.sum_first hs) (by decide)
      | multiply => rfl

/-- An operator which does not improve on the best so far stands below it or beside it,
and beside it a sum is beside a sum. -/
theorem of_not_improves {operator best : Operator} {level : Int} (h : Describes scan s)
    (himproves : ¬ scan.improves operator = true) (hbest : scan.best = some (level, best)) :
    level ≤ net s ∧ (level = net s → operator = .add → best = .add) := by
  rw [improves_iff, h.depth] at himproves
  have hnot : ¬ (net s < level ∨ (operator = .add ∧ net s = level ∧ best = .multiply)) :=
    fun hcase => himproves fun level' best' hbest' => by
      obtain ⟨rfl, rfl⟩ : level = level' ∧ best = best' := by simpa [hbest] using hbest'
      exact hcase
  obtain ⟨hle, hbeside⟩ := not_or.mp hnot
  refine ⟨by omega, ?_⟩
  intro hlevel hadd
  cases best with
  | add => rfl
  | multiply => exact absurd ⟨hadd, hlevel.symm, rfl⟩ hbeside

theorem see {operator : Operator} (h : Describes scan s) :
    Describes (scan.see operator).advance (s ++ [operator.symbol]) := by
  have hdepth : net (s ++ [operator.symbol]) = net s := by simp
  unfold Scan.see
  split
  · rename_i himproves
    refine ⟨by simp [advance, h.position], by simp [advance, h.depth], by simp [advance], ?_⟩
    rintro level found hbest
    obtain ⟨rfl, rfl⟩ : scan.depth = level ∧ operator = found := by simpa [advance] using hbest
    rw [h.depth]
    have hfresh : ¬ Stands operator (net s) s := by
      intro hs
      obtain ⟨hadd, hmultiply⟩ := (h.of_improves himproves hs).2 rfl
      exact absurd (hadd.symm.trans hmultiply) (by decide)
    refine ⟨shallowest_snoc fun other depth hs => h.of_improves himproves hs, ?_⟩
    rw [occurrences_snoc, occurrences_eq_nil hfresh]
    simp [advance, h.position]
  · rename_i himproves
    split
    · rename_i hbest
      refine ⟨by simp [advance, h.position], by simp [advance, h.depth],
        by simp [advance, hbest], ?_⟩
      rintro level found hfound
      obtain ⟨rfl, rfl⟩ : scan.depth = level ∧ operator = found := by
        simpa [advance, hbest] using hfound
      obtain ⟨hshallow, hpositions⟩ := h.shallowest _ _ hbest
      refine ⟨hshallow.snoc (Int.le_of_eq h.depth) fun _ hadd => hadd, ?_⟩
      rw [occurrences_snoc, if_pos ⟨rfl, h.depth.symm⟩, ← hpositions]
      simp [advance, h.position]
    · rename_i hother
      refine ⟨by simp [advance, h.position], by simp [advance, h.depth], ?_, ?_⟩
      · intro hbest
        exact absurd (improves_iff.mpr fun level best hsome => by simp_all [advance]) himproves
      · intro level best hbest
        have hbest : scan.best = some (level, best) := hbest
        obtain ⟨hle, hbeside⟩ := h.of_not_improves himproves hbest
        obtain ⟨hshallow, hpositions⟩ := h.shallowest level best hbest
        refine ⟨hshallow.snoc hle hbeside, ?_⟩
        rw [occurrences_snoc, if_neg, List.append_nil]
        · exact hpositions
        · rintro ⟨hsymbol, hlevel⟩
          rw [hbest, h.depth, hlevel, Operator.symbol_inj.mp hsymbol] at hother
          exact hother rfl

theorem step (h : Describes scan s) (c : Char) : Describes (scan.step c) (s ++ [c]) := by
  unfold Scan.step
  split
  · exact h.pass (c := '(') fun operator => by cases operator <;> decide
  · exact h.pass (c := ')') fun operator => by cases operator <;> decide
  · exact h.see
  · exact h.see
  · rename_i hopen hclose hadd hmultiply
    have hc : nesting c = 0 := nesting_of_ne hopen hclose
    have hpass := h.pass (c := c) fun operator => by
      cases operator with
      | add => exact hadd
      | multiply => exact hmultiply
    rwa [hc, Int.add_zero] at hpass

end Describes

theorem describes (s : List Char) : Describes (s.foldl step start) s := by
  induction s using List.reverseRecOn with
  | nil => exact describes_start
  | append_singleton s c ih =>
    rw [List.foldl_append]
    exact ih.step c

end Split.Scan

namespace Split

theorem shallowest?_eq_none_iff {s : List Char} :
    shallowest? s = none ↔ ∀ operator level, ¬ Stands operator level s := by
  have h := Scan.describes s
  simp only [shallowest?, Option.map_eq_none_iff]
  refine ⟨h.nowhere, ?_⟩
  intro hnone
  cases hbest : (s.foldl Scan.step Scan.start).best with
  | none => rfl
  | some found => exact absurd (h.shallowest _ _ hbest).1.stands (hnone _ _)

theorem shallowest?_eq_none_iff_symbol {s : List Char} :
    shallowest? s = none ↔ ∀ operator : Operator, operator.symbol ∉ s := by
  rw [shallowest?_eq_none_iff]
  constructor
  · intro hnone operator hmem
    obtain ⟨level, hs⟩ := Stands.of_mem hmem
    exact hnone operator level hs
  · intro hsymbol operator level hs
    exact hsymbol operator hs.mem

/-- The split of a text is its shallowest operator with all positions at that depth. -/
theorem shallowest?_eq_some_iff {s : List Char} {split : Split} :
    shallowest? s = some split ↔ ∃ level, Shallowest s level split.operator ∧
      split.positions = occurrences split.operator level s := by
  have h := Scan.describes s
  constructor
  · intro hsplit
    obtain ⟨⟨level, operator⟩, hbest, rfl⟩ := Option.map_eq_some_iff.mp hsplit
    obtain ⟨hshallow, hpositions⟩ := h.shallowest level operator hbest
    exact ⟨level, hshallow, hpositions⟩
  · rintro ⟨level, hshallow, hpositions⟩
    cases hbest : (s.foldl Scan.step Scan.start).best with
    | none => exact absurd hshallow.stands (h.nowhere hbest _ _)
    | some found =>
      obtain ⟨hfirst, hfound⟩ := h.shallowest _ _ hbest
      obtain ⟨hlevel, hoperator⟩ := hfirst.unique hshallow
      simp only [shallowest?, hbest, Option.map_some, hfound, hlevel, hoperator, ← hpositions]

end Split

end ExprTree
