import ExprTree.Text.Balance
import Mathlib.Algebra.BigOperators.Group.List.Basic
import Mathlib.Algebra.Order.Ring.Int
import Mathlib.Data.List.Infix

/-!
# Depth and balance

The depth of a position in a text is what the text before it opens less what it
closes. Both tests of parentheses are scans with a counter; here they are related
to depths. A text is balanced when its net depth is zero and no prefix goes below
zero, and it is wrapped when it is a balanced text between two parentheses.
-/

namespace ExprTree

/-- What a character adds to the depth of the positions behind it. -/
def nesting : Char → Int
  | '(' => 1
  | ')' => -1
  | _ => 0

@[simp] theorem nesting_open : nesting '(' = 1 := rfl
@[simp] theorem nesting_close : nesting ')' = -1 := rfl

theorem nesting_of_ne {c : Char} (hopen : c ≠ '(') (hclose : c ≠ ')') : nesting c = 0 := by
  unfold nesting
  split <;> simp_all

/-- Parentheses opened less parentheses closed. -/
def net (s : List Char) : Int :=
  (s.map nesting).sum

@[simp] theorem net_nil : net [] = 0 := rfl

@[simp] theorem net_cons (c : Char) (s : List Char) : net (c :: s) = nesting c + net s := by
  simp [net]

@[simp] theorem net_append (s t : List Char) : net (s ++ t) = net s + net t := by
  simp [net]

theorem net_eq_zero_of_forall {s : List Char} (h : ∀ c ∈ s, nesting c = 0) : net s = 0 := by
  induction s with
  | nil => rfl
  | cons c s ih =>
    rw [net_cons, h c List.mem_cons_self, ih fun d hd => h d (List.mem_cons_of_mem c hd)]
    rfl

theorem net_eq_count (s : List Char) : net s = s.count '(' - s.count ')' := by
  induction s with
  | nil => rfl
  | cons c s ih =>
    rw [net_cons, ih, List.count_cons, List.count_cons]
    by_cases hopen : c = '('
    · subst hopen
      simp
      omega
    · by_cases hclose : c = ')'
      · subst hclose
        simp
        omega
      · simp [nesting_of_ne hopen hclose, hopen, hclose]

/-! ## Staying above a floor -/

/-- No prefix of the text goes below the given depth. -/
def StaysAbove (floor : Int) (s : List Char) : Prop :=
  ∀ before, before <+: s → floor ≤ net before

@[simp] theorem staysAbove_nil {floor : Int} : StaysAbove floor [] ↔ floor ≤ 0 := by
  simp [StaysAbove]

theorem staysAbove_cons {floor : Int} {c : Char} {s : List Char} :
    StaysAbove floor (c :: s) ↔ floor ≤ 0 ∧ StaysAbove (floor - nesting c) s := by
  constructor
  · intro h
    refine ⟨h [] List.nil_prefix, ?_⟩
    intro before hbefore
    have := h (c :: before) (List.cons_prefix_cons.mpr ⟨rfl, hbefore⟩)
    rw [net_cons] at this
    omega
  · rintro ⟨hfloor, h⟩ before hbefore
    rcases List.prefix_cons_iff.mp hbefore with rfl | ⟨rest, rfl, hrest⟩
    · exact hfloor
    · have := h rest hrest
      rw [net_cons]
      omega

theorem staysAbove_append {floor : Int} {s t : List Char} :
    StaysAbove floor (s ++ t) ↔ StaysAbove floor s ∧ StaysAbove (floor - net s) t := by
  induction s generalizing floor with
  | nil =>
    simp only [List.nil_append, staysAbove_nil, net_nil, Int.sub_zero, iff_and_self]
    exact fun h => h [] List.nil_prefix
  | cons c s ih =>
    rw [List.cons_append, staysAbove_cons, ih, staysAbove_cons, net_cons, Int.sub_sub, and_assoc]

/-- A counter that starts at `depth` accepts exactly the texts which close that many
parentheses besides their own, and never one more. -/
theorem balancesFrom_iff {depth : Nat} {s : List Char} :
    balancesFrom depth s = true ↔ net s = -depth ∧ StaysAbove (-depth) s := by
  fun_induction balancesFrom depth s with
  | case1 depth =>
    simp only [beq_iff_eq, net_nil, staysAbove_nil]
    omega
  | case2 depth s ih =>
    have hfloor : -(depth : Int) - 1 = -((depth + 1 : Nat) : Int) := by omega
    rw [ih, staysAbove_cons, net_cons, nesting_open, hfloor]
    refine and_congr (by omega) (iff_and_self.mpr fun _ => by omega)
  | case3 s =>
    have hbelow : ¬ StaysAbove 0 (')' :: s) := fun h =>
      absurd (h [')'] ⟨s, rfl⟩) (by decide)
    simp [hbelow]
  | case4 depth s ih =>
    have hfloor : -((depth + 1 : Nat) : Int) - -1 = -(depth : Int) := by omega
    rw [ih, staysAbove_cons, net_cons, nesting_close, hfloor]
    refine and_congr (by omega) (iff_and_self.mpr fun _ => by omega)
  | case5 depth c s hopen hzero hsucc ih =>
    have hclose : c ≠ ')' := by
      cases depth with
      | zero => exact hzero rfl
      | succ depth => exact hsucc depth rfl
    have hc : nesting c = 0 := nesting_of_ne hopen hclose
    rw [ih, staysAbove_cons, net_cons, hc, Int.sub_zero]
    refine and_congr (by omega) (iff_and_self.mpr fun _ => by omega)

/-! ## Balanced texts -/

/-- Every parenthesis has its partner. -/
structure Balanced (s : List Char) : Prop where
  net_eq : net s = 0
  staysAbove : StaysAbove 0 s

theorem isBalanced_iff {s : List Char} : isBalanced s = true ↔ Balanced s := by
  rw [isBalanced, balancesFrom_iff]
  exact ⟨fun ⟨hnet, habove⟩ => ⟨hnet, habove⟩, fun h => ⟨h.net_eq, h.staysAbove⟩⟩

/-- As many parentheses are opened as closed, and no prefix closes more than it opens. -/
theorem balanced_iff_count {s : List Char} :
    Balanced s ↔ s.count '(' = s.count ')' ∧
      ∀ before, before <+: s → before.count ')' ≤ before.count '(' := by
  have hnet : net s = 0 ↔ s.count '(' = s.count ')' := by
    rw [net_eq_count]
    omega
  have habove : StaysAbove 0 s ↔ ∀ before, before <+: s → before.count ')' ≤ before.count '(' :=
    forall₂_congr fun before _ => by
      rw [net_eq_count]
      omega
  exact ⟨fun h => ⟨hnet.mp h.net_eq, habove.mp h.staysAbove⟩,
    fun h => ⟨hnet.mpr h.1, habove.mpr h.2⟩⟩

namespace Balanced

theorem of_forall {s : List Char} (h : ∀ c ∈ s, nesting c = 0) : Balanced s where
  net_eq := net_eq_zero_of_forall h
  staysAbove _ hbefore :=
    Int.le_of_eq (net_eq_zero_of_forall fun c hc => h c (hbefore.subset hc)).symm

theorem append {s t : List Char} (hs : Balanced s) (ht : Balanced t) : Balanced (s ++ t) where
  net_eq := by rw [net_append, hs.net_eq, ht.net_eq]; rfl
  staysAbove := by
    rw [staysAbove_append, hs.net_eq]
    exact ⟨hs.staysAbove, ht.staysAbove⟩

theorem wrap {s : List Char} (hs : Balanced s) : Balanced ('(' :: (s ++ [')'])) where
  net_eq := by simp [hs.net_eq]
  staysAbove := by
    have hend : StaysAbove (0 - nesting '(' - net s) [')'] := by
      rw [hs.net_eq, staysAbove_cons]
      simp
    rw [staysAbove_cons, staysAbove_append]
    refine ⟨Int.le_refl 0, ?_, hend⟩
    intro before hbefore
    have := hs.staysAbove before hbefore
    rw [nesting_open]
    omega

end Balanced

-- A last character is either the only one or a last character of the tail.
private theorem exists_snoc_cons {c last : Char} {s : List Char} {P : List Char → Prop} :
    (∃ inner, c :: s = inner ++ [last] ∧ P inner) ↔
      (c = last ∧ s = [] ∧ P []) ∨ ∃ inner, s = inner ++ [last] ∧ P (c :: inner) := by
  constructor
  · rintro ⟨inner, hs, h⟩
    rcases List.cons_eq_append_iff.mp hs with ⟨rfl, hlast⟩ | ⟨rest, rfl, hrest⟩
    · obtain ⟨rfl, rfl⟩ := List.cons.inj hlast
      exact .inl ⟨rfl, rfl, h⟩
    · exact .inr ⟨rest, hrest, h⟩
  · rintro (⟨rfl, rfl, h⟩ | ⟨rest, rfl, h⟩)
    · exact ⟨[], rfl, h⟩
    · exact ⟨c :: rest, rfl, h⟩

/-- The scan finds the partner of the outermost open parenthesis at the end exactly
when the text before the last character closes the other ones and no more. -/
theorem closesAtEnd_iff {depth : Nat} {s : List Char} :
    closesAtEnd (depth + 1) s = true ↔
      ∃ inner, s = inner ++ [')'] ∧ balancesFrom depth inner = true := by
  induction s generalizing depth with
  | nil => simp [closesAtEnd]
  | cons c s ih =>
    rw [exists_snoc_cons]
    by_cases hopen : c = '('
    · subst hopen
      simp [closesAtEnd, balancesFrom, ih]
    · by_cases hclose : c = ')'
      · subst hclose
        cases depth with
        | zero => simp [closesAtEnd, balancesFrom]
        | succ depth => simp [closesAtEnd, balancesFrom, ih]
      · rw [closesAtEnd, ih]
        · simp [hclose, balancesFrom]
        · exact hopen
        · exact hclose

theorem isWrapped_iff {s : List Char} :
    isWrapped s = true ↔ ∃ inner, s = '(' :: (inner ++ [')']) ∧ Balanced inner := by
  unfold isWrapped
  split
  · rename_i s
    rw [closesAtEnd_iff]
    constructor
    · rintro ⟨inner, rfl, h⟩
      exact ⟨inner, rfl, isBalanced_iff.mp h⟩
    · rintro ⟨inner, hs, h⟩
      exact ⟨inner, (List.cons.inj hs).2, isBalanced_iff.mpr h⟩
  · rename_i hopen
    apply iff_of_false Bool.false_ne_true
    rintro ⟨inner, rfl, -⟩
    exact hopen _ rfl

end ExprTree
