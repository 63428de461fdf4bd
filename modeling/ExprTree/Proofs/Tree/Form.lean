import ExprTree.Proofs.Run
import ExprTree.Proofs.Tree.Canonical

/-!
# Forms of fragments

A fragment is read by its form. Readers that agree on the forms may differ in where they
split a chain: the shallowest operator may have several positions, and `readWithin` splits
at the chosen ones among them. `parseWithin` chooses them all.
-/

namespace ExprTree

/-- The forms of a fragment. Each is read in its own way. -/
inductive Form (s : List Char) : Prop where
  | barren : ¬ s.any isLiteralChar = true → Form s
  | literal (l : Literal) : Literal.ofChars? s = some l → Form s
  | wrapped (inner : List Char) : s = '(' :: (inner ++ [')']) → Balanced inner →
      inner.any isLiteralChar = true → Form s
  | chain (level : Int) (operator : Operator) : s.any isLiteralChar = true →
      Literal.ofChars? s = none → ¬ isWrapped s = true → Shallowest s level operator → Form s
  | stuck : s.any isLiteralChar = true → Literal.ofChars? s = none → ¬ isWrapped s = true →
      (∀ operator level, ¬ Stands operator level s) → Form s

theorem any_isLiteralChar_wrap {inner : List Char} :
    ('(' :: (inner ++ [')'])).any isLiteralChar = inner.any isLiteralChar := by
  have hopen : isLiteralChar '(' = false := by decide
  have hclose : isLiteralChar ')' = false := by decide
  simp [hopen, hclose]

theorem form (s : List Char) : Form s := by
  by_cases hany : s.any isLiteralChar = true
  · cases hliteral : Literal.ofChars? s with
    | some l => exact .literal l hliteral
    | none =>
      by_cases hwrapped : isWrapped s = true
      · obtain ⟨inner, rfl, hinner⟩ := isWrapped_iff.mp hwrapped
        exact .wrapped inner rfl hinner (any_isLiteralChar_wrap ▸ hany)
      · cases hsplit : Split.shallowest? s with
        | none => exact .stuck hany hliteral hwrapped (Split.shallowest?_eq_none_iff.mp hsplit)
        | some split =>
          obtain ⟨level, hshallow, -⟩ := Split.shallowest?_eq_some_iff.mp hsplit
          exact .chain level split.operator hany hliteral hwrapped hshallow
  · exact .barren hany

namespace Literal

theorem text_of_ofChars? {s : List Char} {l : Literal} (h : ofChars? s = some l) :
    l.text.toList = s := by
  unfold ofChars? at h
  split at h
  · obtain rfl := Option.some.inj h
    exact String.toList_ofList
  · simp at h

theorem any_of_ofChars? {s : List Char} {l : Literal} (h : ofChars? s = some l) :
    s.any isLiteralChar = true := by
  obtain rfl := text_of_ofChars? h
  obtain ⟨c, rest, hl⟩ := List.exists_cons_of_ne_nil l.text_ne_nil
  have hc : c ∈ l.text.toList := hl ▸ List.mem_cons_self
  exact List.any_eq_true.mpr ⟨c, hc, l.isLiteralChar_of_mem hc⟩

/-- A text with anything else than digits and letters in it is no literal. -/
theorem ofChars?_eq_none {s : List Char} {c : Char} (hc : c ∈ s) (h : ¬ isLiteralChar c = true) :
    ofChars? s = none := by
  cases hliteral : ofChars? s with
  | none => rfl
  | some l =>
    obtain rfl := text_of_ofChars? hliteral
    exact absurd (l.isLiteralChar_of_mem hc) h

end Literal

namespace Tree

/-- The text of a canonical chain is neither a literal nor wrapped in parentheses. -/
theorem Canonical.form_operation {operator : Operator} {children : List Tree}
    (h : Canonical (.compound (.operation operator) children)) :
    (compound (.operation operator) children).text.any isLiteralChar = true ∧
      Literal.ofChars? (compound (.operation operator) children).text = none ∧
      ¬ isWrapped (compound (.operation operator) children).text = true := by
  refine ⟨List.any_eq_true.mpr h.exists_isLiteralChar, ?_, ?_⟩
  · exact Literal.ofChars?_eq_none h.stands.mem fun hc =>
      symbol_ne_of_isLiteralChar hc operator rfl
  · intro hwrapped
    obtain ⟨inner, htext, hinner⟩ := isWrapped_iff.mp hwrapped
    have := (htext ▸ h.stands).one_le_of_wrap hinner
    omega

/-- The tree of a fragment that is split at the chosen positions of its shallowest operator,
if the recursion is at most `depth` calls deep. -/
def readWithin (choose : List Nat → List Nat) : Nat → List Char → Traced ParseFailure Tree
  | 0, _ => throw (.fault .tooDeep)
  | depth + 1, s =>
    if !s.any isLiteralChar then
      throw (.rejected (.noLiteral (String.ofList s)))
    else
      match Literal.ofChars? s with
      | some l => pure (.literal l)
      | none =>
        if isWrapped s then do
          let inner ← readWithin choose depth (← fragment s 1 (s.length - 1))
          return .compound .parentheses [inner]
        else
          match Split.shallowest? s with
          | none => throw (.rejected (.noOperator (String.ofList s)))
          | some split => do
            let operands ← Split.operands ⟨split.operator, choose split.positions⟩ s
            Traced.emit (.splitting (String.ofList s) operands.length split.operator)
            let children ← operands.mapM (readWithin choose depth)
            return .compound (.operation split.operator) children

theorem parseWithin_eq_readWithin (depth : Nat) : parseWithin depth = readWithin id depth := by
  induction depth with
  | zero => rfl
  | succ depth ih =>
    funext s
    rw [parseWithin, readWithin, ih]
    rfl

section Run

variable {choose : List Nat → List Nat} {s : List Char} {depth : Nat}

theorem readWithin_barren (h : ¬ s.any isLiteralChar = true) (log : Log) :
    readWithin choose (depth + 1) s log =
      .error (.rejected (.noLiteral (String.ofList s))) log := by
  rw [readWithin, if_pos (by simpa using h)]
  rfl

theorem readWithin_literal {l : Literal} (h : Literal.ofChars? s = some l) (log : Log) :
    readWithin choose (depth + 1) s log = .ok (.literal l) log := by
  rw [readWithin, if_neg (by simp [Literal.any_of_ofChars? h]), h]
  rfl

theorem fragment_wrap (inner : List Char) :
    fragment ('(' :: (inner ++ [')'])) 1 (('(' :: (inner ++ [')'])).length - 1) = .ok inner := by
  simp [fragment]

theorem readWithin_wrapped {inner : List Char} (hinner : Balanced inner)
    (hany : inner.any isLiteralChar = true) :
    readWithin choose (depth + 1) ('(' :: (inner ++ [')'])) =
      readWithin choose depth inner >>=
        fun content => pure (.compound .parentheses [content]) := by
  have hliteral : Literal.ofChars? ('(' :: (inner ++ [')'])) = none :=
    Literal.ofChars?_eq_none List.mem_cons_self (by decide)
  rw [readWithin, if_neg (by simp [hany]), hliteral, fragment_wrap]
  simp only [isWrapped_iff.mpr ⟨inner, rfl, hinner⟩, if_true]
  rfl

/-- A chain is recorded, then its operands are read from left to right. -/
theorem readWithin_chain {level : Int} {operator : Operator} {operands : List (List Char)}
    (hany : s.any isLiteralChar = true) (hliteral : Literal.ofChars? s = none)
    (hwrapped : ¬ isWrapped s = true) (hshallow : Shallowest s level operator)
    (hoperands : Split.operands ⟨operator, choose (occurrences operator level s)⟩ s =
      .ok operands) (log : Log) :
    readWithin choose (depth + 1) s log =
      (operands.mapM (readWithin choose depth) >>= fun children =>
          pure (.compound (.operation operator) children))
        (log.push (.splitting (String.ofList s) operands.length operator)) := by
  have hsplit : Split.shallowest? s = some ⟨operator, occurrences operator level s⟩ :=
    Split.shallowest?_eq_some_iff.mpr ⟨level, hshallow, rfl⟩
  rw [readWithin, if_neg (by simp [hany]), hliteral]
  simp only [hwrapped, hsplit, hoperands]
  rfl

theorem readWithin_uncut {level : Int} {operator : Operator} {fault : Fault}
    (hany : s.any isLiteralChar = true) (hliteral : Literal.ofChars? s = none)
    (hwrapped : ¬ isWrapped s = true) (hshallow : Shallowest s level operator)
    (hoperands : Split.operands ⟨operator, choose (occurrences operator level s)⟩ s =
      .error fault) (log : Log) :
    readWithin choose (depth + 1) s log = .error (.fault fault) log := by
  have hsplit : Split.shallowest? s = some ⟨operator, occurrences operator level s⟩ :=
    Split.shallowest?_eq_some_iff.mpr ⟨level, hshallow, rfl⟩
  rw [readWithin, if_neg (by simp [hany]), hliteral]
  simp only [hwrapped, hsplit, hoperands]
  rfl

theorem readWithin_stuck (hany : s.any isLiteralChar = true)
    (hliteral : Literal.ofChars? s = none) (hwrapped : ¬ isWrapped s = true)
    (hnone : ∀ operator level, ¬ Stands operator level s) (log : Log) :
    readWithin choose (depth + 1) s log =
      .error (.rejected (.noOperator (String.ofList s))) log := by
  rw [readWithin, if_neg (by simp [hany]), hliteral]
  simp only [hwrapped, Split.shallowest?_eq_none_iff.mpr hnone]
  rfl

/-- The bound on the recursion is never reached when it exceeds the length of the text: if
there is a place to split, one is chosen, so every call is on a shorter text. -/
theorem readWithin_eq_of_lt (hchoose : ∀ positions, positions ≠ [] → choose positions ≠ [])
    {depth' : Nat} (h : s.length < depth) (h' : s.length < depth') :
    readWithin choose depth s = readWithin choose depth' s := by
  induction depth generalizing s depth' with
  | zero => omega
  | succ depth ih =>
    obtain ⟨depth', rfl⟩ : ∃ d, depth' = d + 1 := Nat.exists_eq_add_of_le' (by omega)
    funext log
    cases form s with
    | barren hany => rw [readWithin_barren hany, readWithin_barren hany]
    | literal l hl => rw [readWithin_literal hl, readWithin_literal hl]
    | wrapped inner hs hinner hany =>
      subst hs
      simp only [List.length_cons, List.length_append, List.length_nil] at h h'
      have hsame : readWithin choose depth inner = readWithin choose depth' inner :=
        ih (by omega) (by omega)
      rw [readWithin_wrapped hinner hany, readWithin_wrapped hinner hany, hsame]
    | chain level operator hany hliteral hwrapped hshallow =>
      cases hoperands :
        Split.operands ⟨operator, choose (occurrences operator level s)⟩ s with
      | error fault =>
        rw [readWithin_uncut hany hliteral hwrapped hshallow hoperands,
          readWithin_uncut hany hliteral hwrapped hshallow hoperands]
      | ok operands =>
        obtain ⟨i, hi⟩ := stands_iff_mem_occurrences.mp hshallow.stands
        have hshorter := Split.length_lt_of_operands hoperands
          (hchoose _ (List.ne_nil_of_mem hi))
        have hsame : operands.mapM (readWithin choose depth) =
            operands.mapM (readWithin choose depth') :=
          Run.mapM_congr fun operand hoperand => by
            have := hshorter operand hoperand
            exact ih (by omega) (by omega)
        rw [readWithin_chain hany hliteral hwrapped hshallow hoperands,
          readWithin_chain hany hliteral hwrapped hshallow hoperands, hsame]
    | stuck hany hliteral hwrapped hnone =>
      rw [readWithin_stuck hany hliteral hwrapped hnone,
        readWithin_stuck hany hliteral hwrapped hnone]

end Run

end Tree
end ExprTree
