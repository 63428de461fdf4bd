import ExprTree.Proofs.Text.Split

/-!
# The pieces of a split

Cutting a text at the positions of an operator is list surgery with indices.
`pieces` says what comes out by recursion on the text: at every occurrence of the
operator at the given depth a new piece begins. Joining the pieces with the
operator gives the text back, and pieces free of the operator are found again.
-/

namespace ExprTree

/-! ## Joined lists -/

theorem length_intercalate {α : Type} (joint : α) {parts : List (List α)} (h : parts ≠ []) :
    (List.intercalate [joint] parts).length + 1 = (parts.map List.length).sum + parts.length := by
  induction parts with
  | nil => exact absurd rfl h
  | cons part rest ih =>
    cases rest with
    | nil => simp
    | cons next rest =>
      have := ih (List.cons_ne_nil next rest)
      simp only [List.intercalate_cons_cons, List.length_append, List.length_nil,
        List.map_cons, List.sum_cons, List.length_cons] at this ⊢
      omega

theorem intercalate_append {α : Type} (joint : List α) {parts others : List (List α)}
    (h : parts ≠ []) (hothers : others ≠ []) :
    joint.intercalate (parts ++ others) =
      joint.intercalate parts ++ joint ++ joint.intercalate others := by
  induction parts with
  | nil => exact absurd rfl h
  | cons part rest ih =>
    cases rest with
    | nil => simp [List.intercalate_cons_of_ne_nil hothers]
    | cons next rest =>
      have := ih (List.cons_ne_nil next rest)
      simp only [List.cons_append, List.intercalate_cons_cons] at this ⊢
      rw [this]
      simp

theorem mem_intercalate {α : Type} {joint a : α} {parts : List (List α)}
    (h : a ∈ List.intercalate [joint] parts) : a = joint ∨ ∃ part ∈ parts, a ∈ part := by
  induction parts with
  | nil => simp at h
  | cons part rest ih =>
    cases rest with
    | nil => exact .inr ⟨part, List.mem_cons_self, by simpa using h⟩
    | cons next rest =>
      simp only [List.intercalate_cons_cons, List.mem_append, List.mem_singleton] at h
      rcases h with (h | h) | h
      · exact .inr ⟨part, List.mem_cons_self, h⟩
      · exact .inl h
      · rcases ih h with h | ⟨later, hlater, h⟩
        · exact .inl h
        · exact .inr ⟨later, List.mem_cons_of_mem _ hlater, h⟩

theorem count_intercalate {α : Type} [DecidableEq α] (joint a : α) {parts : List (List α)}
    (h : parts ≠ []) :
    ((List.intercalate [joint] parts).count a : Int) =
      (parts.map fun part => (part.count a : Int)).sum +
        (if joint = a then (parts.length : Int) - 1 else 0) := by
  induction parts with
  | nil => exact absurd rfl h
  | cons part rest ih =>
    cases rest with
    | nil => simp
    | cons next rest =>
      have := ih (List.cons_ne_nil next rest)
      rw [List.intercalate_cons_cons, List.count_append, List.count_append, List.count_singleton]
      simp only [List.map_cons, List.sum_cons, List.length_cons, beq_iff_eq] at this ⊢
      by_cases hjoint : joint = a <;> simp only [hjoint, if_true, if_false] at this ⊢ <;> omega

/-! ## Pieces -/

/-- The text cut at every occurrence of the operator at the given depth. -/
def pieces (operator : Operator) : Int → List Char → List (List Char)
  | _, [] => [[]]
  | level, c :: s =>
    if c = operator.symbol ∧ level = 0 then
      [] :: pieces operator 0 s
    else
      (pieces operator (level - nesting c) s).modifyHead (c :: ·)

section Pieces

variable {operator : Operator} {level : Int} {s : List Char}

theorem pieces_ne_nil (operator : Operator) (level : Int) (s : List Char) :
    pieces operator level s ≠ [] := by
  induction s generalizing level with
  | nil => simp [pieces]
  | cons c s ih =>
    rw [pieces]
    split
    · simp
    · simpa using ih _

/-- Nothing but the operators at the cuts is lost. -/
theorem intercalate_pieces (operator : Operator) (level : Int) (s : List Char) :
    List.intercalate [operator.symbol] (pieces operator level s) = s := by
  induction s generalizing level with
  | nil => simp [pieces]
  | cons c s ih =>
    rw [pieces]
    split
    · rename_i hc
      rw [List.intercalate_cons_of_ne_nil (pieces_ne_nil _ _ _), ih, hc.1]
      simp
    · obtain ⟨piece, rest, hpieces⟩ := List.exists_cons_of_ne_nil (pieces_ne_nil operator _ s)
      have hjoin := ih (level - nesting c)
      rw [hpieces] at hjoin ⊢
      rw [List.modifyHead_cons, List.intercalate_cons_cons_left, hjoin]

/-- The text begins with its first piece. -/
theorem exists_prefix_of_pieces {piece : List Char} {rest : List (List Char)}
    (h : pieces operator level s = piece :: rest) : ∃ after, s = piece ++ after := by
  have hjoin := intercalate_pieces operator level s
  rw [h] at hjoin
  cases rest with
  | nil => exact ⟨[], by simpa using hjoin.symm⟩
  | cons next rest =>
    rw [List.intercalate_cons_cons, List.append_assoc] at hjoin
    exact ⟨_, hjoin.symm⟩

theorem length_pieces :
    (pieces operator level s).length = (occurrences operator level s).length + 1 := by
  induction s generalizing level with
  | nil => rfl
  | cons c s ih =>
    rw [pieces, occurrences_cons]
    split
    · rename_i hc
      simp [ih, hc.2, hc.1]
    · simp [ih]

/-- No piece contains a further place to cut. Behind the first cut the depths count
from the depth of the cuts. -/
theorem pieces_clear {piece : List Char} {rest : List (List Char)}
    (h : pieces operator level s = piece :: rest) :
    ¬ Stands operator level piece ∧ ∀ later ∈ rest, ¬ Stands operator 0 later := by
  induction s generalizing level piece rest with
  | nil =>
    obtain ⟨rfl, rfl⟩ := List.cons.inj h
    simp
  | cons c s ih =>
    rw [pieces] at h
    split at h
    · obtain ⟨rfl, rfl⟩ := List.cons.inj h
      obtain ⟨head, tail, hpieces⟩ := List.exists_cons_of_ne_nil (pieces_ne_nil operator 0 s)
      obtain ⟨hhead, htail⟩ := ih hpieces
      rw [hpieces]
      exact ⟨Stands.not_nil, List.forall_mem_cons.mpr ⟨hhead, htail⟩⟩
    · rename_i hc
      obtain ⟨head, tail, hpieces⟩ :=
        List.exists_cons_of_ne_nil (pieces_ne_nil operator (level - nesting c) s)
      rw [hpieces, List.modifyHead_cons] at h
      obtain ⟨rfl, rfl⟩ := List.cons.inj h
      obtain ⟨hhead, htail⟩ := ih hpieces
      refine ⟨?_, htail⟩
      intro hs
      cases Stands.cons_iff.mp hs with
      | inl hs => exact hc hs
      | inr hs => exact hhead hs

/-- Every piece but the first one stands behind an operator at the given depth. -/
theorem exists_place_of_mem_tail {piece later : List Char} {rest : List (List Char)}
    (h : pieces operator level s = piece :: rest) (hlater : later ∈ rest) :
    ∃ before after, s = before ++ later ++ after ∧ net before = level := by
  induction s generalizing level piece rest with
  | nil =>
    obtain ⟨-, rfl⟩ := List.cons.inj h
    cases hlater
  | cons c s ih =>
    rw [pieces] at h
    split at h
    · rename_i hc
      obtain ⟨rfl, rfl⟩ := hc
      obtain ⟨-, rfl⟩ := List.cons.inj h
      obtain ⟨head, tail, hpieces⟩ := List.exists_cons_of_ne_nil (pieces_ne_nil operator 0 s)
      rw [hpieces] at hlater
      cases List.mem_cons.mp hlater with
      | inl hhead =>
        subst hhead
        obtain ⟨after, hafter⟩ := exists_prefix_of_pieces hpieces
        exact ⟨[operator.symbol], after, by rw [hafter]; simp, by simp⟩
      | inr htail =>
        obtain ⟨before, after, hs, hnet⟩ := ih hpieces htail
        exact ⟨operator.symbol :: before, after, by rw [hs]; simp, by simp [hnet]⟩
    · obtain ⟨head, tail, hpieces⟩ :=
        List.exists_cons_of_ne_nil (pieces_ne_nil operator (level - nesting c) s)
      rw [hpieces, List.modifyHead_cons] at h
      obtain ⟨-, rfl⟩ := List.cons.inj h
      obtain ⟨before, after, hs, hnet⟩ := ih hpieces hlater
      exact ⟨c :: before, after, by rw [hs]; simp, by rw [net_cons]; omega⟩

/-- A piece stands at the start or behind one of the operators, none of which it contains. -/
theorem exists_place_of_mem_pieces {piece : List Char} (h : piece ∈ pieces operator level s) :
    ∃ before after, s = before ++ piece ++ after ∧ (before = [] ∨ net before = level) ∧
      ¬ Stands operator (level - net before) piece := by
  obtain ⟨first, rest, hpieces⟩ := List.exists_cons_of_ne_nil (pieces_ne_nil operator level s)
  obtain ⟨hfirst, hrest⟩ := pieces_clear hpieces
  rw [hpieces] at h
  cases List.mem_cons.mp h with
  | inl h =>
    subst h
    obtain ⟨after, hafter⟩ := exists_prefix_of_pieces hpieces
    exact ⟨[], after, hafter, .inl rfl, by simpa using hfirst⟩
  | inr h =>
    obtain ⟨before, after, hs, rfl⟩ := exists_place_of_mem_tail hpieces h
    exact ⟨before, after, hs, .inr rfl, by simpa using hrest piece h⟩

/-- A text without a place to cut is its only piece. -/
theorem pieces_of_not_stands (h : ¬ Stands operator level s) : pieces operator level s = [s] := by
  induction s generalizing level with
  | nil => rfl
  | cons c s ih =>
    obtain ⟨hc, hs⟩ := not_or.mp (mt Stands.cons_iff.mpr h)
    rw [pieces, if_neg hc, ih hs, List.modifyHead_cons]

theorem pieces_append (h : ¬ Stands operator level s) (hnet : net s = level) (t : List Char) :
    pieces operator level (s ++ operator.symbol :: t) = s :: pieces operator 0 t := by
  induction s generalizing level with
  | nil => rw [List.nil_append, pieces, if_pos ⟨rfl, hnet.symm⟩]
  | cons c s ih =>
    obtain ⟨hc, hs⟩ := not_or.mp (mt Stands.cons_iff.mpr h)
    rw [net_cons] at hnet
    rw [List.cons_append, pieces, if_neg hc, ih hs (by omega), List.modifyHead_cons]

/-- Operands which the operator does not cut are found again in the chain they form. -/
theorem pieces_intercalate {operands : List (List Char)} (hne : operands ≠ [])
    (hclear : ∀ operand ∈ operands, ¬ Stands operator 0 operand)
    (hnet : ∀ operand ∈ operands, net operand = 0) :
    pieces operator 0 (List.intercalate [operator.symbol] operands) = operands := by
  induction operands with
  | nil => exact absurd rfl hne
  | cons operand rest ih =>
    have hfirst := hclear operand List.mem_cons_self
    cases rest with
    | nil => rw [List.intercalate_singleton, pieces_of_not_stands hfirst]
    | cons next rest =>
      rw [List.intercalate_cons_cons, List.append_assoc, List.singleton_append,
        pieces_append hfirst (hnet operand List.mem_cons_self), ih (List.cons_ne_nil _ _)]
      · exact fun later hlater => hclear later (List.mem_cons_of_mem _ hlater)
      · exact fun later hlater => hnet later (List.mem_cons_of_mem _ hlater)

end Pieces

/-! ## Chains -/

/-- In a chain of operands that change no depth, an operator stands in an operand or is
one of those between the operands. -/
theorem Stands.intercalate_iff {operator joint : Operator} {level : Int}
    {operands : List (List Char)} (hnet : ∀ operand ∈ operands, net operand = 0) :
    Stands operator level (List.intercalate [joint.symbol] operands) ↔
      (∃ operand ∈ operands, Stands operator level operand) ∨
        (operator = joint ∧ level = 0 ∧ 2 ≤ operands.length) := by
  induction operands with
  | nil => simp
  | cons operand rest ih =>
    cases rest with
    | nil => simp
    | cons next rest =>
      have hfirst : net operand = 0 := hnet operand List.mem_cons_self
      have hjoint : level - net (operand ++ [joint.symbol]) = level := by simp [hfirst]
      have hlong : 2 ≤ (operand :: next :: rest).length := by simp
      rw [List.intercalate_cons_cons, append_iff, append_iff, singleton_iff, hjoint, hfirst,
        ih fun later hlater => hnet later (List.mem_cons_of_mem _ hlater), Operator.symbol_inj,
        Int.sub_zero, List.exists_mem_cons_iff _ operand]
      constructor
      · rintro ((hs | ⟨rfl, rfl⟩) | hs | ⟨rfl, rfl, -⟩)
        · exact .inl (.inl hs)
        · exact .inr ⟨rfl, rfl, hlong⟩
        · exact .inl (.inr hs)
        · exact .inr ⟨rfl, rfl, hlong⟩
      · rintro ((hs | hs) | ⟨rfl, rfl, -⟩)
        · exact .inl (.inl hs)
        · exact .inr (.inl hs)
        · exact .inl (.inr ⟨rfl, rfl⟩)

theorem Balanced.intercalate {joint : Operator} {operands : List (List Char)}
    (h : ∀ operand ∈ operands, Balanced operand) :
    Balanced (List.intercalate [joint.symbol] operands) := by
  induction operands with
  | nil => exact ⟨rfl, by simp⟩
  | cons operand rest ih =>
    have hrest := ih fun later hlater => h later (List.mem_cons_of_mem _ hlater)
    have hjoint : Balanced [joint.symbol] := .of_forall (by simp)
    cases rest with
    | nil => simpa using h operand List.mem_cons_self
    | cons next rest =>
      rw [List.intercalate_cons_cons]
      exact ((h operand List.mem_cons_self).append hjoint).append hrest

/-- Inside of wrapping parentheses every operator is at least one deep. -/
theorem Stands.one_le_of_wrap {operator : Operator} {level : Int} {inner : List Char}
    (h : Stands operator level ('(' :: (inner ++ [')']))) (hinner : Balanced inner) :
    1 ≤ level := by
  have hopen : '(' ≠ operator.symbol := by cases operator <;> decide
  have hclose : ')' ≠ operator.symbol := by cases operator <;> decide
  cases cons_iff.mp h with
  | inl h => exact absurd h.1 hopen
  | inr h =>
    cases snoc_iff.mp h with
    | inl h =>
      have := h.floor_le hinner.staysAbove
      rw [nesting_open] at this
      omega
    | inr h => exact absurd h.1 hclose

namespace Split

private theorem modifyHead_self (cuts : List (List Char)) :
    cuts.modifyHead (fun piece => piece) = cuts := by
  cases cuts <;> rfl

/-- One cut: `front` becomes a piece, and the rest of the text is behind it. -/
theorem cut_at_symbol (cuts : Array (List Char)) (start : Nat) (front s : List Char) (c : Char)
    (positions : List Nat) :
    cut cuts start (front ++ c :: s) ((start + front.length) :: positions) =
      cut (cuts.push front) (start + front.length + 1) s positions := by
  rw [cut, if_neg (Nat.not_lt.mpr (Nat.le_add_right _ _)), Nat.add_sub_cancel_left,
    List.splitAt_eq, List.take_left, List.drop_left]

/-- Cutting at all occurrences in `s`, where `front` belongs to the piece under way. -/
theorem cut_occurrences (operator : Operator) (level : Int) (s front : List Char)
    (cuts : Array (List Char)) (start : Nat) :
    cut cuts start (front ++ s)
        ((occurrences operator level s).map (start + front.length + ·)) =
      .ok (cuts ++ ((pieces operator level s).modifyHead (front ++ ·)).toArray) := by
  induction s generalizing level front cuts start with
  | nil => simp [cut, pieces]
  | cons c s ih =>
    rw [occurrences_cons, pieces]
    split
    · rename_i hc
      obtain ⟨rfl, rfl⟩ := hc
      have := ih 0 [] (cuts.push front) (start + front.length + 1)
      simp only [List.singleton_append, List.map_cons, List.map_map, Nat.add_zero, cut_at_symbol]
      simpa [Function.comp_def, Nat.add_assoc, Nat.add_comm 1, modifyHead_self] using this
    · have := ih (level - nesting c) (front ++ [c]) cuts start
      simpa [Function.comp_def, Nat.add_assoc, Nat.add_comm 1] using this

theorem operands_occurrences (operator : Operator) (level : Int) (s : List Char) :
    operands ⟨operator, occurrences operator level s⟩ s = .ok (pieces operator level s) := by
  have := cut_occurrences operator level s [] #[] 0
  simp only [List.nil_append, List.length_nil, Nat.zero_add, List.map_id', modifyHead_self] at this
  rw [operands, this]
  simp

/-- What comes out of further cuts is no longer than what was left to cut, and shorter if there
were any. -/
theorem mem_of_cut {cuts out : Array (List Char)} {start : Nat} {rest : List Char}
    {positions : List Nat} (h : cut cuts start rest positions = .ok out) {operand : List Char}
    (hmem : operand ∈ out) : operand ∈ cuts ∨
      operand.length ≤ rest.length ∧ (positions ≠ [] → operand.length < rest.length) := by
  induction positions generalizing cuts start rest with
  | nil =>
    obtain rfl := Except.ok.inj h
    cases Array.mem_push.mp hmem with
    | inl hcuts => exact .inl hcuts
    | inr hlast => exact .inr ⟨hlast ▸ Nat.le_refl _, fun hne => absurd rfl hne⟩
  | cons position positions ih =>
    rw [cut] at h
    split at h
    · cases h
    · split at h
      · rename_i front c later hsplit
        have hrest : front ++ c :: later = rest := by
          rw [List.splitAt_eq, Prod.mk.injEq] at hsplit
          rw [← hsplit.1, ← hsplit.2, List.take_append_drop]
        subst hrest
        simp only [List.length_append, List.length_cons]
        rcases ih h with hmem | ⟨hle, -⟩
        · cases Array.mem_push.mp hmem with
          | inl hcuts => exact .inl hcuts
          | inr hfront => exact .inr ⟨by rw [hfront]; omega, fun _ => by rw [hfront]; omega⟩
        · exact .inr ⟨by omega, fun _ => by omega⟩
      · cases h

/-- Each operand of a split is shorter than the text. -/
theorem length_lt_of_operands {split : Split} {s : List Char} {operands : List (List Char)}
    (h : split.operands s = .ok operands) (hne : split.positions ≠ []) :
    ∀ operand ∈ operands, operand.length < s.length := by
  intro operand hoperand
  unfold Split.operands at h
  cases hcut : cut #[] 0 s split.positions with
  | error fault =>
    rw [hcut] at h
    cases h
  | ok out =>
    rw [hcut] at h
    obtain rfl := Except.ok.inj h
    obtain hmem | ⟨-, hlt⟩ := mem_of_cut hcut (Array.mem_toList_iff.mp hoperand)
    · simp at hmem
    · exact hlt hne

/-! ## The first cut -/

theorem occurrences_first {operator : Operator} {left : List Char} (right : List Char)
    (hclear : ¬ Stands operator (net left) left) :
    (occurrences operator (net left) (left ++ operator.symbol :: right)).take 1 =
      [left.length] := by
  generalize hlevel : net left = level at hclear ⊢
  induction left generalizing level with
  | nil =>
    subst hlevel
    rw [List.nil_append, occurrences_cons, if_pos ⟨rfl, rfl⟩]
    rfl
  | cons c left ih =>
    obtain ⟨hc, hleft⟩ := not_or.mp (mt Stands.cons_iff.mpr hclear)
    rw [net_cons] at hlevel
    rw [List.cons_append, occurrences_cons, if_neg hc, List.nil_append, ← List.map_take,
      ih _ (by omega) hleft]
    rfl

/-- A text is cut at the first occurrence of an operator into what stands before and what
stands behind it. -/
theorem exists_operands_first {operator : Operator} {level : Int} {s : List Char}
    (h : Stands operator level s) :
    ∃ left right, s = left ++ operator.symbol :: right ∧ net left = level ∧
      ¬ Stands operator level left ∧
      operands ⟨operator, (occurrences operator level s).take 1⟩ s = .ok [left, right] := by
  obtain ⟨left, right, rfl, rfl, hclear⟩ : ∃ left right, s = left ++ operator.symbol :: right ∧
      net left = level ∧ ¬ Stands operator level left := by
    induction s generalizing level with
    | nil => exact absurd h Stands.not_nil
    | cons c s ih =>
      by_cases hc : c = operator.symbol ∧ level = 0
      · obtain ⟨rfl, rfl⟩ := hc
        exact ⟨[], s, rfl, rfl, Stands.not_nil⟩
      · have hs := (Stands.cons_iff.mp h).resolve_left hc
        obtain ⟨left, right, rfl, hlevel, hclear⟩ := ih hs
        refine ⟨c :: left, right, rfl, by rw [net_cons]; omega, ?_⟩
        exact mt Stands.cons_iff.mp (not_or.mpr ⟨hc, hclear⟩)
  refine ⟨left, right, rfl, rfl, hclear, ?_⟩
  have hcut := cut_at_symbol #[] 0 left right operator.symbol []
  rw [Nat.zero_add] at hcut
  rw [operands, occurrences_first right hclear, hcut]
  rfl

end Split

end ExprTree
