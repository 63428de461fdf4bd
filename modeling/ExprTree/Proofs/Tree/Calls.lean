import ExprTree.Proofs.Grammar
import ExprTree.Proofs.Tree.Reading

/-!
# The calls of the reader

To read a fragment is to read parts of it: the inside of wrapping parentheses, or the
operands of a chain from left to right until one of them cannot be read. A text that cannot
be read leads by such calls to a fragment that is refused as it stands. Whatever comes before
that fragment could go on to an expression.
-/

namespace ExprTree

open Run

/-! ## Parts of a fragment -/

/-- The pieces before a given one, with the operators behind them, are what stands before it. -/
theorem intercalate_front {α : Type} (joint : α) (front : List (List α)) (part : List α)
    (back : List (List α)) :
    ∃ after, List.intercalate [joint] (front ++ part :: back) =
      front.flatMap (· ++ [joint]) ++ part ++ after := by
  induction front with
  | nil =>
    cases back with
    | nil => exact ⟨[], by simp⟩
    | cons next back =>
      refine ⟨joint :: List.intercalate [joint] (next :: back), ?_⟩
      rw [List.nil_append, List.intercalate_cons_cons]
      simp
  | cons first front ih =>
    obtain ⟨after, hafter⟩ := ih
    refine ⟨after, ?_⟩
    rw [List.cons_append, List.intercalate_cons_of_ne_nil (by simp), hafter]
    simp

theorem length_lt_of_mem_pieces {operator : Operator} {level : Int} {s piece : List Char}
    (h : Stands operator level s) (hpiece : piece ∈ pieces operator level s) :
    piece.length < s.length := by
  obtain ⟨i, hi⟩ := stands_iff_mem_occurrences.mp h
  exact Split.length_lt_of_operands (Split.operands_occurrences operator level s)
    (List.ne_nil_of_mem hi) piece hpiece

/-- The pieces and one operator at least have room in the text. -/
theorem sum_length_pieces_lt {operator : Operator} {level : Int} {s : List Char}
    (h : Stands operator level s) : ((pieces operator level s).map List.length).sum < s.length := by
  have hlength := length_intercalate operator.symbol (pieces_ne_nil operator level s)
  rw [intercalate_pieces, length_pieces] at hlength
  obtain ⟨i, hi⟩ := stands_iff_mem_occurrences.mp h
  have := List.length_pos_of_mem hi
  omega

/-! ## Reading in terms of parts -/

namespace Tree

theorem parse_barren {s : List Char} (h : ¬ s.any isLiteralChar = true) (log : Log) :
    parse s log = .error (.rejected (.noLiteral (String.ofList s))) log := by
  rw [parse, parseWithin_eq_readWithin, readWithin_barren h]

theorem parse_literal {s : List Char} {l : Literal} (h : Literal.ofChars? s = some l) (log : Log) :
    parse s log = .ok (.literal l) log := by
  rw [parse, parseWithin_eq_readWithin, readWithin_literal h]

theorem parse_stuck {s : List Char} (hany : s.any isLiteralChar = true)
    (hliteral : Literal.ofChars? s = none) (hwrapped : ¬ isWrapped s = true)
    (hnone : ∀ operator level, ¬ Stands operator level s) (log : Log) :
    parse s log = .error (.rejected (.noOperator (String.ofList s))) log := by
  rw [parse, parseWithin_eq_readWithin, readWithin_stuck hany hliteral hwrapped hnone]

theorem parse_wrapped {inner : List Char} (hinner : Balanced inner)
    (hany : inner.any isLiteralChar = true) :
    parse ('(' :: (inner ++ [')'])) =
      parse inner >>= fun content => pure (.compound .parentheses [content]) := by
  rw [parse, parseWithin_eq_readWithin, readWithin_wrapped hinner hany,
    ← parseWithin_eq_readWithin,
    parseWithin_eq_parse (by rw [List.length_cons, List.length_append]; omega)]

theorem parse_chain {s : List Char} {level : Int} {operator : Operator}
    (hany : s.any isLiteralChar = true) (hliteral : Literal.ofChars? s = none)
    (hwrapped : ¬ isWrapped s = true) (hshallow : Shallowest s level operator) (log : Log) :
    parse s log =
      ((pieces operator level s).mapM parse >>= fun children =>
          pure (.compound (.operation operator) children))
        (log.push (.splitting (String.ofList s) (pieces operator level s).length operator)) := by
  have hparts : (pieces operator level s).mapM (parseWithin s.length) =
      (pieces operator level s).mapM parse :=
    mapM_congr fun piece hpiece =>
      parseWithin_eq_parse (length_lt_of_mem_pieces hshallow.stands hpiece)
  rw [← hparts, parse, parseWithin_eq_readWithin, parseWithin_eq_readWithin,
    readWithin_id_chain hany hliteral hwrapped hshallow]

/-- Some run reads the fragment, and then every run does. -/
def Readable (s : List Char) : Prop :=
  ∃ tree log log', parse s log = .ok tree log'

theorem readable_iff {s : List Char} : Readable s ↔ Derives .E s := by
  rw [derives_iff_exists_canonical]
  constructor
  · rintro ⟨tree, log, log', h⟩
    obtain ⟨hcanonical, htext, -⟩ := parse_eq_ok_iff.mp h
    exact ⟨tree, hcanonical, htext⟩
  · rintro ⟨tree, hcanonical, htext⟩
    exact ⟨tree, #[], _, parse_eq_ok_iff.mpr ⟨hcanonical, htext, rfl⟩⟩

end Tree

open ExprTree.Tree

theorem readable_of_mapM {parts : List (List Char)} {log log' : Log} {trees : List Tree}
    (h : parts.mapM parse log = .ok trees log') : ∀ part ∈ parts, Readable part := by
  induction parts generalizing log trees with
  | nil => simp
  | cons part rest ih =>
    obtain ⟨tree, others, middle, hfirst, hrest, -⟩ := mapM_cons_eq_ok_iff.mp h
    exact List.forall_mem_cons.mpr ⟨⟨tree, log, middle, hfirst⟩, ih hrest⟩

theorem exists_mapM_of_readable {parts : List (List Char)} (h : ∀ part ∈ parts, Readable part)
    (log : Log) : ∃ trees log', parts.mapM parse log = .ok trees log' := by
  induction parts generalizing log with
  | nil => exact ⟨[], log, mapM_nil_eq_ok_iff.mpr ⟨rfl, rfl⟩⟩
  | cons part rest ih =>
    obtain ⟨⟨tree, before, _, hfirst⟩, hrest⟩ := List.forall_mem_cons.mp h
    obtain ⟨hcanonical, htext, -⟩ := parse_eq_ok_iff.mp hfirst
    obtain ⟨trees, log', htrees⟩ := ih hrest (log ++ tree.splittings)
    exact ⟨tree :: trees, log', mapM_cons_eq_ok_iff.mpr
      ⟨tree, trees, _, parse_eq_ok_iff.mpr ⟨hcanonical, htext, rfl⟩, htrees, rfl⟩⟩

/-! ## Calls -/

/-- Reading `s` calls for reading `part`, which begins at the given position: the inside of
parentheses, or an operand, once all operands before it were read. -/
inductive Calls (s : List Char) : Nat → List Char → Prop where
  | inside {part : List Char} : s.any isLiteralChar = true → Literal.ofChars? s = none →
      isWrapped s = true → fragment s 1 (s.length - 1) = .ok part → Calls s 1 part
  | operand {split : Split} {front back : List (List Char)} {part : List Char} :
      s.any isLiteralChar = true → Literal.ofChars? s = none → ¬ isWrapped s = true →
      Split.shallowest? s = some split → split.operands s = .ok (front ++ part :: back) →
      (∀ earlier ∈ front, Readable earlier) →
      Calls s (front.map fun earlier => earlier.length + 1).sum part

namespace Calls

variable {s part : List Char} {start : Nat}

theorem of_wrapped {inner : List Char} (hinner : Balanced inner)
    (hany : inner.any isLiteralChar = true) : Calls ('(' :: (inner ++ [')'])) 1 inner :=
  .inside (any_isLiteralChar_wrap.trans hany)
    (Literal.ofChars?_eq_none List.mem_cons_self (by decide))
    (isWrapped_iff.mpr ⟨inner, rfl, hinner⟩) (fragment_wrap inner)

theorem of_pieces {level : Int} {operator : Operator} {front back : List (List Char)}
    (hany : s.any isLiteralChar = true) (hliteral : Literal.ofChars? s = none)
    (hwrapped : ¬ isWrapped s = true) (hshallow : Shallowest s level operator)
    (hpieces : pieces operator level s = front ++ part :: back)
    (hfront : ∀ earlier ∈ front, Readable earlier) :
    Calls s (front.map fun earlier => earlier.length + 1).sum part :=
  .operand hany hliteral hwrapped (Split.shallowest?_eq_some_iff.mpr ⟨level, hshallow, rfl⟩)
    (hpieces ▸ Split.operands_occurrences operator level s) hfront

/-- The part that is called for is the inside of parentheses or one of the pieces. -/
theorem exists_form (h : Calls s start part) :
    (start = 1 ∧ s = '(' :: (part ++ [')']) ∧ Balanced part ∧ part.any isLiteralChar = true) ∨
      ∃ level operator front back, s.any isLiteralChar = true ∧ Literal.ofChars? s = none ∧
        ¬ isWrapped s = true ∧ Shallowest s level operator ∧
        pieces operator level s = front ++ part :: back ∧
        (∀ earlier ∈ front, Readable earlier) ∧
        start = (front.map fun earlier => earlier.length + 1).sum := by
  cases h with
  | inside hany hliteral hwrapped hpart =>
    obtain ⟨inner, rfl, hinner⟩ := isWrapped_iff.mp hwrapped
    rw [fragment_wrap] at hpart
    obtain rfl := Except.ok.inj hpart
    exact .inl ⟨rfl, rfl, hinner, any_isLiteralChar_wrap ▸ hany⟩
  | @operand split front back _ hany hliteral hwrapped hsplit hoperands hfront =>
    obtain ⟨level, hshallow, hpositions⟩ := Split.shallowest?_eq_some_iff.mp hsplit
    obtain ⟨operator, positions⟩ := split
    obtain rfl : positions = occurrences operator level s := hpositions
    rw [Split.operands_occurrences] at hoperands
    exact .inr ⟨level, operator, front, back, hany, hliteral, hwrapped, hshallow,
      Except.ok.inj hoperands, hfront, rfl⟩

theorem length_lt (h : Calls s start part) : part.length < s.length := by
  rcases h.exists_form with ⟨-, rfl, -, -⟩ | ⟨level, operator, front, back, -, -, -, hshallow,
    hpieces, -, -⟩
  · rw [List.length_cons, List.length_append]
    omega
  · exact length_lt_of_mem_pieces hshallow.stands (by simp [hpieces])

end Calls

/-! ## What may come next -/

/-- Any expression may come next: behind it, the text can be completed to an expression. -/
def Awaits (before : List Char) : Prop :=
  ∀ s, Derives .E s → ∃ after, Derives .E (before ++ s ++ after)

namespace Awaits

theorem nil : Awaits [] := fun s hs => ⟨[], by simpa using hs⟩

theorem append {before later : List Char} (h : Awaits before) (hlater : Awaits later) :
    Awaits (before ++ later) := by
  intro s hs
  obtain ⟨after, hafter⟩ := hlater s hs
  obtain ⟨last, hlast⟩ := h _ hafter
  exact ⟨after ++ last, by simpa using hlast⟩

theorem openParenthesis : Awaits ['('] :=
  fun s hs => ⟨[')'], by simpa using hs.parentheses.operand⟩

/-- An operand may be followed by its operator and another one. -/
theorem operands (operator : Operator) {front : List (List Char)}
    (h : ∀ earlier ∈ front, Derives .E earlier) :
    Awaits (front.flatMap (· ++ [operator.symbol])) := by
  induction front with
  | nil => exact nil
  | cons earlier front ih =>
    obtain ⟨hfirst, hrest⟩ := List.forall_mem_cons.mp h
    have hjoined : Awaits (earlier ++ [operator.symbol]) := fun s hs =>
      ⟨[], by simpa using hfirst.append_operator operator hs⟩
    exact hjoined.append (ih hrest)

/-- What awaits an expression is the beginning of one. -/
theorem exists_derives {before : List Char} (h : Awaits before) :
    ∃ s, Derives .E s ∧ before <+: s := by
  have hletter : Derives .E ['x'] := .operand (.literal (.letter (by decide)))
  obtain ⟨after, hafter⟩ := h _ hletter
  exact ⟨_, hafter, ['x'] ++ after, by simp⟩

end Awaits

/-- What stands before the part that is called for awaits an expression. -/
theorem Calls.exists_awaits {s part : List Char} {start : Nat} (h : Calls s start part) :
    ∃ before after, s = before ++ part ++ after ∧ before.length = start ∧ Awaits before := by
  rcases h.exists_form with ⟨rfl, rfl, -, -⟩ | ⟨level, operator, front, back, -, -, -, -,
    hpieces, hfront, rfl⟩
  · exact ⟨['('], [')'], by simp, rfl, .openParenthesis⟩
  · obtain ⟨after, hafter⟩ := intercalate_front operator.symbol front part back
    rw [← hpieces, intercalate_pieces] at hafter
    refine ⟨_, after, hafter, ?_, .operands operator fun earlier hearlier => ?_⟩
    · simp [List.length_flatMap]
    · exact readable_iff.mp (hfront earlier hearlier)

/-! ## Nested calls -/

/-- Reading `s` comes to reading `part`, which begins at the given position, by a call or by
calls within calls. -/
inductive ComesTo : List Char → Nat → List Char → Prop where
  | here (s : List Char) : ComesTo s 0 s
  | call {s part inner : List Char} {start offset : Nat} :
      Calls s start part → ComesTo part offset inner → ComesTo s (start + offset) inner

theorem ComesTo.exists_awaits {s part : List Char} {start : Nat} (h : ComesTo s start part) :
    ∃ before after, s = before ++ part ++ after ∧ before.length = start ∧ Awaits before := by
  induction h with
  | here s => exact ⟨[], [], by simp, rfl, .nil⟩
  | call hcall _ ih =>
    obtain ⟨before, after, rfl, rfl, hbefore⟩ := hcall.exists_awaits
    obtain ⟨later, last, rfl, rfl, hlater⟩ := ih
    exact ⟨before ++ later, last ++ after, by simp, by simp, hbefore.append hlater⟩

/-! ## Where reading fails -/

/-- The fragment is refused as it stands, without a further call. -/
inductive Refused (s : List Char) : ParseError → Prop where
  | noLiteral : ¬ s.any isLiteralChar = true → Refused s (.noLiteral (String.ofList s))
  | noOperator : s.any isLiteralChar = true → Literal.ofChars? s = none →
      ¬ isWrapped s = true → Split.shallowest? s = none → Refused s (.noOperator (String.ofList s))

namespace Tree

theorem parse_of_refused {s : List Char} {error : ParseError} (h : Refused s error) (log : Log) :
    parse s log = .error (.rejected error) log := by
  cases h with
  | noLiteral hany => exact parse_barren hany log
  | noOperator hany hliteral hwrapped hnone =>
    exact parse_stuck hany hliteral hwrapped (Split.shallowest?_eq_none_iff.mp hnone) log

/-- When a part that is called for cannot be read, neither can the whole. -/
theorem parse_error_of_calls {s part : List Char} {start : Nat} {failure : ParseFailure}
    (h : Calls s start part) (hpart : ∀ log, ∃ log', parse part log = .error failure log')
    (log : Log) : ∃ log', parse s log = .error failure log' := by
  rcases h.exists_form with ⟨-, rfl, hinner, hany⟩ | ⟨level, operator, front, back, hany, hliteral,
    hwrapped, hshallow, hpieces, hfront, -⟩
  · obtain ⟨log', hfails⟩ := hpart log
    rw [parse_wrapped hinner hany]
    exact ⟨log', bind_of_error hfails⟩
  · rw [parse_chain hany hliteral hwrapped hshallow]
    obtain ⟨trees, middle, hread⟩ := exists_mapM_of_readable hfront _
    obtain ⟨log', hfails⟩ := hpart middle
    exact ⟨log', bind_of_error
      (mapM_eq_error_iff.mpr ⟨front, part, back, trees, middle, hpieces, hread, hfails⟩)⟩

/-- A failure is that of a part that is called for, unless the fragment is refused as it
stands. -/
theorem exists_of_parse_error {s : List Char} {failure : ParseFailure} {log log' : Log}
    (h : parse s log = .error failure log') :
    (∃ error, Refused s error ∧ failure = .rejected error) ∨
      ∃ start part middle, Calls s start part ∧ parse part middle = .error failure log' := by
  cases form s with
  | barren hany =>
    rw [parse_barren hany] at h
    cases h
    exact .inl ⟨_, .noLiteral hany, rfl⟩
  | literal l hl =>
    rw [parse_literal hl] at h
    cases h
  | wrapped inner hs hinner hany =>
    subst hs
    rw [parse_wrapped hinner hany, bind_eq_error_iff] at h
    rcases h with h | ⟨_, _, -, hpure⟩
    · exact .inr ⟨1, inner, log, .of_wrapped hinner hany, h⟩
    · cases hpure
  | chain level operator hany hliteral hwrapped hshallow =>
    rw [parse_chain hany hliteral hwrapped hshallow, bind_eq_error_iff] at h
    rcases h with h | ⟨_, _, -, hpure⟩
    · obtain ⟨front, part, back, trees, middle, hpieces, hread, hfails⟩ := mapM_eq_error_iff.mp h
      exact .inr ⟨_, part, middle, .of_pieces hany hliteral hwrapped hshallow hpieces
        (readable_of_mapM hread), hfails⟩
    · cases hpure
  | stuck hany hliteral hwrapped hnone =>
    rw [parse_stuck hany hliteral hwrapped hnone] at h
    cases h
    exact .inl ⟨_, .noOperator hany hliteral hwrapped (Split.shallowest?_eq_none_iff.mpr hnone),
      rfl⟩

/-- Reading fails exactly when it comes to a fragment that is refused, and with the error of
that fragment. -/
theorem parse_error_iff {s : List Char} {failure : ParseFailure} (log : Log) :
    (∃ log', parse s log = .error failure log') ↔ ∃ start part error,
      ComesTo s start part ∧ Refused part error ∧ failure = .rejected error := by
  constructor
  · rintro ⟨log', h⟩
    induction hlength : s.length using Nat.strongRecOn generalizing s log with
    | ind n ih =>
      rcases exists_of_parse_error h with ⟨error, hrefused, rfl⟩ |
        ⟨start, part, middle, hcall, hpart⟩
      · exact ⟨0, s, error, .here s, hrefused, rfl⟩
      · obtain ⟨offset, inner, error, hcomes, hrefused, rfl⟩ :=
          ih part.length (hlength ▸ hcall.length_lt) middle hpart rfl
        exact ⟨start + offset, inner, error, .call hcall hcomes, hrefused, rfl⟩
  · rintro ⟨start, part, error, hcomes, hrefused, rfl⟩
    induction hcomes generalizing log with
    | here s => exact ⟨log, parse_of_refused hrefused log⟩
    | call hcall _ ih => exact parse_error_of_calls hcall (fun log => ih log hrefused) log

theorem not_readable_of_comesTo {s part : List Char} {start : Nat} {error : ParseError}
    (h : ComesTo s start part) (hrefused : Refused part error) : ¬ Readable s := by
  rintro ⟨tree, log, log', hread⟩
  obtain ⟨last, hfails⟩ := (parse_error_iff log).mpr ⟨start, part, error, h, hrefused, rfl⟩
  rw [hread] at hfails
  cases hfails

end Tree

/-! ## The one place where reading fails -/

/-- The first place where `P` fails, and what stands before it, are determined by the list. -/
theorem eq_of_append_cons_eq {α : Type} {P : α → Prop} {front front' back back' : List α}
    {a a' : α} (h : front ++ a :: back = front' ++ a' :: back') (hfront : ∀ b ∈ front, P b)
    (hfront' : ∀ b ∈ front', P b) (ha : ¬ P a) (ha' : ¬ P a') : front = front' ∧ a = a' := by
  rcases List.append_eq_append_iff.mp h with ⟨later, rfl, hlater⟩ | ⟨later, rfl, hlater⟩
  · cases later with
    | nil => exact ⟨(List.append_nil _).symm, (List.cons.inj hlater).1⟩
    | cons b rest =>
      obtain ⟨rfl, -⟩ := List.cons.inj hlater
      exact absurd (hfront' a (by simp)) ha
  · cases later with
    | nil => exact ⟨List.append_nil _, (List.cons.inj hlater).1.symm⟩
    | cons b rest =>
      obtain ⟨rfl, -⟩ := List.cons.inj hlater
      exact absurd (hfront a' (by simp)) ha'

theorem Refused.not_calls {s part : List Char} {start : Nat} {error : ParseError}
    (h : Refused s error) : ¬ Calls s start part := by
  intro hcall
  cases h with
  | noLiteral hnone =>
    cases hcall with
    | inside hany _ _ _ => exact hnone hany
    | operand hany _ _ _ _ _ => exact hnone hany
  | noOperator _ _ hwrapped hnone =>
    cases hcall with
    | inside _ _ hwraps _ => exact hwrapped hwraps
    | operand _ _ _ hsplit _ _ => cases hnone.symm.trans hsplit

theorem Refused.unique {s : List Char} {error error' : ParseError} (h : Refused s error)
    (h' : Refused s error') : error = error' := by
  cases h with
  | noLiteral hnone =>
    cases h' with
    | noLiteral _ => rfl
    | noOperator hany _ _ _ => exact absurd hany hnone
  | noOperator hany _ _ _ =>
    cases h' with
    | noLiteral hnone => exact absurd hany hnone
    | noOperator _ _ _ _ => rfl

/-- Of the parts that a fragment calls for, one at most cannot be read: no operand is read behind
it. -/
theorem Calls.unique {s part part' : List Char} {start start' : Nat} (h : Calls s start part)
    (h' : Calls s start' part') (hpart : ¬ Readable part) (hpart' : ¬ Readable part') :
    start = start' ∧ part = part' := by
  rcases h.exists_form with ⟨rfl, rfl, hinner, -⟩ | ⟨level, operator, front, back, -, -, hwrapped,
    hshallow, hpieces, hfront, rfl⟩
  · rcases h'.exists_form with ⟨rfl, hwrap, -, -⟩ | ⟨_, _, _, _, -, -, hwrapped, -⟩
    · exact ⟨rfl, by simpa using hwrap⟩
    · exact absurd (isWrapped_iff.mpr ⟨part, rfl, hinner⟩) hwrapped
  · rcases h'.exists_form with ⟨-, rfl, hinner, -⟩ | ⟨level', operator', front', back', -, -, -,
      hshallow', hpieces', hfront', rfl⟩
    · exact absurd (isWrapped_iff.mpr ⟨part', rfl, hinner⟩) hwrapped
    · obtain ⟨rfl, rfl⟩ := hshallow.unique hshallow'
      obtain ⟨rfl, rfl⟩ :=
        eq_of_append_cons_eq (hpieces.symm.trans hpieces') hfront hfront' hpart hpart'
      exact ⟨rfl, rfl⟩

/-- Reading comes to a single fragment that is refused. -/
theorem ComesTo.unique {s part part' : List Char} {start start' : Nat} {error error' : ParseError}
    (h : ComesTo s start part) (hrefused : Refused part error) (h' : ComesTo s start' part')
    (hrefused' : Refused part' error') : start = start' ∧ part = part' := by
  induction h generalizing start' with
  | here s =>
    cases h' with
    | here => exact ⟨rfl, rfl⟩
    | call hcall _ => exact absurd hcall hrefused.not_calls
  | call hcall hcomes ih =>
    cases h' with
    | here => exact absurd hcall hrefused'.not_calls
    | call hcall' hcomes' =>
      obtain ⟨rfl, rfl⟩ := hcall.unique hcall' (not_readable_of_comesTo hcomes hrefused)
        (not_readable_of_comesTo hcomes' hrefused')
      obtain ⟨rfl, rfl⟩ := ih hrefused hcomes'
      exact ⟨rfl, rfl⟩

end ExprTree
