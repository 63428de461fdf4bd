import ExprTree.Proofs.Language
import ExprTree.Proofs.Tree.Calls

/-!
# The error of a rejected text

A text is rejected for the first of its faults: a character outside of the alphabet wherever
it stands, then parentheses without a partner, and then the fragment at which reading from
left to right can go no further. Everything before that fragment might still have become an
expression.
-/

namespace ExprTree

open Run

/-! ## Characters and parentheses -/

theorem firstForeign?_eq_some {text : List Char} {c : Char} {i : Nat} (hc : text[i]? = some c)
    (hforeign : ¬ isAllowed c = true)
    (hfirst : ∀ j < i, ∀ d, text[j]? = some d → isAllowed d = true) :
    firstForeign? text = some (c, i) := by
  obtain ⟨hi, rfl⟩ := List.getElem?_eq_some_iff.mp hc
  rw [firstForeign?, List.find?_eq_some_iff_getElem]
  refine ⟨by simpa using hforeign, i, by simpa using hi, by simp, ?_⟩
  intro j hj
  simpa using hfirst j hj _ (List.getElem?_eq_getElem (by omega))

theorem checkText_of_foreign {text : List Char} {c : Char} {i : Nat} (hc : text[i]? = some c)
    (hforeign : ¬ isAllowed c = true)
    (hfirst : ∀ j < i, ∀ d, text[j]? = some d → isAllowed d = true) :
    checkText text = .error (.unexpectedCharacter c i) := by
  rw [checkText, firstForeign?_eq_some hc hforeign hfirst]

theorem checkText_of_unbalanced {text : List Char} (hallowed : ∀ c ∈ text, isAllowed c = true)
    (hunbalanced : ¬ Balanced (withoutBlanks text)) :
    checkText text = .error (.unbalancedParentheses (String.ofList (withoutBlanks text))) := by
  rw [checkText, firstForeign?_eq_none_iff.mpr hallowed]
  exact if_neg (mt isBalanced_iff.mp hunbalanced)

/-! ## Fragments -/

/-- Reading `s` comes to the fragment at the given position and refuses it with the error. What
stands before the fragment is the beginning of some expression. -/
structure Halts (s : List Char) (start : Nat) (fragment : List Char) (error : ParseError) :
    Prop where
  comesTo : ComesTo s start fragment
  refused : Refused fragment error
  place : start ≤ s.length ∧ fragment <+: s.drop start
  viable : ∃ w, Derives .E w ∧ s.take start <+: w

theorem ComesTo.halts {s part : List Char} {start : Nat} {error : ParseError}
    (h : ComesTo s start part) (hrefused : Refused part error) : Halts s start part error := by
  obtain ⟨before, after, rfl, rfl, hbefore⟩ := h.exists_awaits
  refine ⟨h, hrefused, ?_, ?_⟩
  · simp [List.length_append]
  · simpa using hbefore.exists_derives

theorem Halts.unique {s fragment fragment' : List Char} {start start' : Nat}
    {error error' : ParseError} (h : Halts s start fragment error)
    (h' : Halts s start' fragment' error') :
    start' = start ∧ fragment' = fragment ∧ error' = error := by
  obtain ⟨rfl, rfl⟩ := h.comesTo.unique h.refused h'.comesTo h'.refused
  exact ⟨rfl, rfl, h'.refused.unique h.refused⟩

/-- What an error that names a fragment says about it. -/
inductive Blames (fragment : List Char) : ParseError → Prop where
  | noLiteral : (∀ c ∈ fragment, ¬ c.isDigit = true ∧ ¬ c.isLower = true) →
      Blames fragment (.noLiteral (String.ofList fragment))
  | noOperator : (∃ c ∈ fragment, c.isDigit = true ∨ c.isLower = true) → '+' ∉ fragment →
      '*' ∉ fragment → ¬ Derives .E fragment →
      Blames fragment (.noOperator (String.ofList fragment))

theorem Refused.blames {s : List Char} {error : ParseError} (h : Refused s error) :
    Blames s error := by
  have hself := h
  cases h with
  | noLiteral hany =>
    refine .noLiteral fun c hc => ?_
    simpa [isLiteralChar] using mt (fun h => List.any_eq_true.mpr ⟨c, hc, h⟩) hany
  | noOperator hany _ _ hnone =>
    have hsymbol := Split.shallowest?_eq_none_iff_symbol.mp hnone
    refine .noOperator ?_ (hsymbol .add) (hsymbol .multiply) ?_
    · simpa [isLiteralChar] using hany
    · intro hderives
      obtain ⟨tree, log, log', hread⟩ := Tree.readable_iff.mpr hderives
      rw [Tree.parse_of_refused hself] at hread
      cases hread

/-! ## Rejected texts -/

namespace Expression

variable {text : String} {log log' : Log}

theorem parse_of_checkText_error {error : ParseError} (h : checkText text.toList = .error error) :
    parse text log = .error (.rejected error) log := by
  rw [parse, h]
  exact bind_of_error rfl

theorem parse_of_tree_error {s : List Char} {failure : ParseFailure}
    (hcheck : checkText text.toList = .ok s) (h : Tree.parse s log = .error failure log') :
    parse text log = .error failure log' := by
  rw [parse, hcheck]
  exact (bind_of_ok rfl).trans (bind_of_error h)

/-- Once the characters and the parentheses are in order, a text is rejected where reading
halts. -/
theorem exists_refused_of_parse_error (hlength : text.length ≤ 2 ^ 32) {s : List Char}
    {failure : ParseFailure} (hcheck : checkText text.toList = .ok s)
    (h : parse text log = .error failure log') :
    ∃ start part error, ComesTo s start part ∧ Refused part error ∧ failure = .rejected error := by
  cases hread : Tree.parse s log with
  | error failure' middle =>
    rw [parse_of_tree_error hcheck hread] at h
    cases h
    exact (Tree.parse_error_iff log).mp ⟨_, hread⟩
  | ok tree middle =>
    obtain ⟨hcanonical, htext, -⟩ := Tree.parse_eq_ok_iff.mp hread
    obtain ⟨hallowed, -, rfl⟩ := checkText_eq_ok_iff.mp hcheck
    obtain ⟨e, last, haccepted⟩ : ∃ e last, parse text log = .ok e last :=
      (accepts_iff_readAs hlength).mpr ⟨tree, hallowed, hcanonical, htext⟩
    rw [haccepted] at h
    cases h

/-- The error of a rejected text is that of its first fault. A character outside of the alphabet
comes before all else, and parentheses without a partner come before any fragment. The fragment
stands where reading halts, and it halts nowhere else. -/
theorem parse_error_is_first_fault (hlength : text.length ≤ 2 ^ 32) {failure : ParseFailure}
    (h : parse text log = .error failure log') :
    ∃ error, failure = .rejected error ∧
      (∀ c i, text.toList[i]? = some c →
        ¬ (isBlank c = true ∨ c.isDigit = true ∨ c.isLower = true ∨ c ∈ ['+', '*', '(', ')']) →
        (∀ j < i, ∀ d, text.toList[j]? = some d →
          isBlank d = true ∨ d.isDigit = true ∨ d.isLower = true ∨ d ∈ ['+', '*', '(', ')']) →
        error = .unexpectedCharacter c i) ∧
      ((∀ c ∈ text.toList, isBlank c = true ∨ c.isDigit = true ∨ c.isLower = true ∨
          c ∈ ['+', '*', '(', ')']) → ∀ s, s = withoutBlanks text.toList →
        ((∃ before, before <+: s ∧ before.count '(' < before.count ')') ∨
            s.count '(' ≠ s.count ')' →
          error = .unbalancedParentheses (String.ofList s)) ∧
        ((∀ before, before <+: s → before.count ')' ≤ before.count '(') →
          s.count '(' = s.count ')' →
          ∃ start fragment, Halts s start fragment error ∧ Blames fragment error ∧
            ∀ start' fragment' error', Halts s start' fragment' error' →
              start' = start ∧ fragment' = fragment ∧ error' = error)) := by
  simp only [← isAllowed_iff]
  obtain ⟨error, rfl⟩ : ∃ error, failure = .rejected error := by
    cases hcheck : checkText text.toList with
    | error error =>
      rw [parse_of_checkText_error hcheck] at h
      cases h
      exact ⟨error, rfl⟩
    | ok s =>
      obtain ⟨_, _, error, -, -, rfl⟩ := exists_refused_of_parse_error hlength hcheck h
      exact ⟨error, rfl⟩
  have hwhole : ∀ {other}, checkText text.toList = .error other → error = other := by
    intro other hcheck
    rw [parse_of_checkText_error hcheck] at h
    cases h
    rfl
  refine ⟨error, rfl, ?_, ?_⟩
  · intro c i hc hforeign hfirst
    exact hwhole (checkText_of_foreign hc hforeign hfirst)
  · rintro hallowed s rfl
    refine ⟨fun hcounts => hwhole (checkText_of_unbalanced hallowed ?_), fun habove hnet => ?_⟩
    · rw [balanced_iff_count]
      rintro ⟨hnet, habove⟩
      rcases hcounts with ⟨before, hbefore, hlt⟩ | hne
      · exact absurd (habove before hbefore) (Nat.not_le.mpr hlt)
      · exact hne hnet
    · have hcheck : checkText text.toList = .ok (withoutBlanks text.toList) :=
        checkText_eq_ok_iff.mpr ⟨hallowed, balanced_iff_count.mpr ⟨hnet, habove⟩, rfl⟩
      obtain ⟨start, part, error', hcomes, hrefused, herror⟩ :=
        exists_refused_of_parse_error hlength hcheck h
      obtain rfl := ParseFailure.rejected.inj herror
      have hhalts := hcomes.halts hrefused
      exact ⟨start, part, hhalts, hrefused.blames, fun _ _ _ => hhalts.unique⟩

/-- The product is cut first. Its second operand is no product but has an operator, at which it
is cut inside of the parentheses. -/
theorem parse_error_of_application :
    ∃ log', "2 *x(y+z)".length ≤ 2 ^ 32 ∧
      parse "2 *x(y+z)" #[] = .error (.rejected (.noOperator "x(y")) log' ∧
      Halts "2*x(y+z)".toList 2 ['x', '(', 'y'] (.noOperator "x(y") ∧
      Blames ['x', '(', 'y'] (.noOperator "x(y") := by
  have hallowed : ∀ c ∈ "2 *x(y+z)".toList, isAllowed c = true := List.all_eq_true.mp rfl
  have hbalanced : Balanced "2*x(y+z)".toList := isBalanced_iff.mp (by decide)
  have hstripped : "2*x(y+z)".toList = withoutBlanks "2 *x(y+z)".toList := by decide
  have hcheck : checkText "2 *x(y+z)".toList = .ok "2*x(y+z)".toList :=
    checkText_eq_ok_iff.mpr ⟨hallowed, hbalanced, hstripped⟩
  have htwo : Derives .L ['2'] := .digits (by simp) (List.forall_mem_singleton.mpr rfl)
  have hfactor : Tree.Readable ['2'] := Tree.readable_iff.mpr (.operand (.literal htwo))
  have hproduct : Calls "2*x(y+z)".toList 2 ['x', '(', 'y', '+', 'z', ')'] :=
    .operand (by decide) (by decide) (by decide)
      (show Split.shallowest? _ = some ⟨.multiply, [1]⟩ by decide)
      (show Split.operands _ _ = .ok ([['2']] ++ ['x', '(', 'y', '+', 'z', ')'] :: []) by decide)
      (by simpa using hfactor)
  have hsum : Calls ['x', '(', 'y', '+', 'z', ')'] 0 ['x', '(', 'y'] :=
    .operand (by decide) (by decide) (by decide)
      (show Split.shallowest? _ = some ⟨.add, [3]⟩ by decide)
      (show Split.operands _ _ = .ok ([] ++ ['x', '(', 'y'] :: [['z', ')']]) by decide) (by simp)
  have hcomes : ComesTo "2*x(y+z)".toList 2 ['x', '(', 'y'] := .call hproduct (.call hsum (.here _))
  have hrefused : Refused ['x', '(', 'y'] (.noOperator "x(y") :=
    .noOperator (by decide) (by decide) (by decide) (by decide)
  obtain ⟨log', hread⟩ := (Tree.parse_error_iff #[]).mpr ⟨_, _, _, hcomes, hrefused, rfl⟩
  have hparse := parse_of_tree_error hcheck hread
  obtain ⟨error, herror, -, hpoints⟩ := parse_error_is_first_fault (by decide) hparse
  obtain rfl := ParseFailure.rejected.inj herror
  obtain ⟨hnet, habove⟩ := balanced_iff_count.mp hbalanced
  obtain ⟨start, fragment, hhalts, hblames, hunique⟩ :=
    (hpoints (fun c hc => isAllowed_iff.mp (hallowed c hc)) _ hstripped).2 habove hnet
  obtain ⟨rfl, rfl, -⟩ := hunique _ _ _ (hcomes.halts hrefused)
  exact ⟨log', by decide, hparse, hhalts, hblames⟩

end Expression
end ExprTree
