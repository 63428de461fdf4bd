import ExprTree.Proofs.Bytewise.Reader
import ExprTree.Proofs.Rejection

/-!
# Safe reading

Reading in bytes and words, `Bytewise.parse`, ends in the same way as reading does: with an
expression, or with an error that tells what is wrong with the text. No counter leaves its
word, no text is cut where it cannot be, no call is on a text that is no shorter, and no node
is attached where it cannot be.
-/

namespace ExprTree.Bytewise

open Run

variable {text : String} {log : Log}

/-- The checks of a text find what the checks of its characters find. -/
theorem build_eq (hlength : text.length < 2 ^ 64) :
    build text = match checkText text.toList with
      | .ok s => construct (String.ofList s)
      | .error error => throw (.rejected error) := by
  rw [build, checkText]
  cases hforeign : firstForeign? text.toList with
  | some foreign => rfl
  | none =>
    have hascii := isAscii_withoutBlanks (firstForeign?_eq_none_iff.mp hforeign)
    have hshort : (withoutBlanks text.toList).length < 2 ^ 64 :=
      (List.length_filter_le _ _).trans_lt (String.length_toList ▸ hlength)
    have hbalance := checkBalance_eq hascii (String.ofList (withoutBlanks text.toList)) 0
      (by omega)
    dsimp only
    rw [bytes_ofList hascii, hbalance, isBalanced]
    by_cases hbalanced : balancesFrom 0 (withoutBlanks text.toList) = true
    · rw [if_pos hbalanced, if_pos hbalanced]
      rfl
    · rw [if_neg hbalanced, if_neg hbalanced]
      rfl

theorem parse_of_checkText_error (hlength : text.length < 2 ^ 64) {error : ParseError}
    (h : checkText text.toList = .error error) :
    parse text log = .error (.rejected error) log := by
  rw [parse, build_eq hlength, h]
  rfl

theorem parse_of_read_error (hlength : text.length < 2 ^ 64) {s : List Char} {stop : Stop}
    {draft : Draft} (hcheck : checkText text.toList = .ok s)
    (h : read (String.ofList s) ⟨Expression.empty, log⟩ = .error stop draft) :
    parse text log = .error stop draft.log := by
  rw [parse, build_eq hlength, hcheck]
  dsimp only
  rw [construct, bind_of_error h]

/-- Flattening leaves a canonical tree as it was planted, and its outline can be shown. -/
theorem parse_of_dense (hlength : text.length < 2 ^ 64) {s : List Char} {e : Expression}
    {tree : Tree} {draft : Draft} (hcheck : checkText text.toList = .ok s)
    (hread : read (String.ofList s) ⟨Expression.empty, log⟩ = .ok e.root draft)
    (hnodes : draft.nodes = e.nodes) (hcanonical : tree.Canonical) (hdense : e.Dense tree)
    (hroom : e.size ≤ 2 ^ 32) :
    parse text log = .ok e (draft.log.push (.parsed (String.ofList s) (tree.outline 0))) := by
  have hmodify : (modify fun draft => { draft with root := e.root } : Edit Stop Unit) draft =
      .ok () ⟨e, draft.log⟩ := by
    change EStateM.Result.ok () { draft with root := e.root } = _
    rw [hnodes]
  have hflat : Edit.flatten (⟨e, draft.log⟩ : Draft) = .ok () ⟨e, draft.log⟩ :=
    Expression.flatten_of_dense hcanonical hdense hroom
  have houtline : Edit.read (·.outline e.root 0) (⟨e, draft.log⟩ : Draft) =
      .ok (tree.outline 0) ⟨e, draft.log⟩ :=
    Edit.read_of_ok (Expression.outline_ok (hdense.tree_eq hroom) 0)
  rw [parse, build_eq hlength, hcheck]
  dsimp only
  rw [construct, bind_of_ok hread, bind_of_ok hmodify, bind_of_ok (lift_eq_ok_iff.mpr hflat),
    bind_of_ok (lift_eq_ok_iff.mpr houtline)]
  rfl

/-- Reading a text of up to so many characters gives an expression or rejects the text, and in
bytes and words it gives the same expression or the same error, with the same records. Nothing
else ever stops it. -/
theorem parse_safe (hlength : text.length ≤ 2 ^ 32) (log : Log) :
    (∃ e log', Expression.parse text log = .ok e log' ∧ parse text log = .ok e log') ∨
    ∃ error log', Expression.parse text log = .error (.rejected error) log' ∧
      parse text log = .error (.rejected error) log' := by
  have hword : text.length < 2 ^ 64 := by omega
  cases hcheck : checkText text.toList with
  | error error =>
    exact .inr ⟨error, log, Expression.parse_of_checkText_error hcheck,
      parse_of_checkText_error hword hcheck⟩
  | ok s =>
    obtain ⟨hallowed, -, rfl⟩ := checkText_eq_ok_iff.mp hcheck
    have hfits : (withoutBlanks text.toList).length ≤ 2 ^ 32 :=
      (List.length_filter_le _ _).trans (String.length_toList ▸ hlength)
    have hread := plants_read (isAscii_withoutBlanks hallowed) ⟨Expression.empty, log⟩
      ((Nat.zero_add _).trans_le hfits)
    unfold Agrees at hread
    split at hread
    · rename_i tree log' htree
      obtain ⟨id, draft, hrun, rfl, hplanted⟩ := hread
      obtain ⟨hcanonical, htext, rfl⟩ := Tree.parse_eq_ok_iff.mp htree
      have hsize : tree.size ≤ 2 ^ 32 := hcanonical.size_le_length_text.trans (htext ▸ hfits)
      obtain ⟨e, -, hdense, hparse⟩ :=
        Expression.exists_parse ⟨hallowed, hcanonical, htext⟩ hsize log
      have hroom : e.size ≤ 2 ^ 32 := hdense.size ▸ hsize
      -- the nodes were added in the order in which planting the tree adds them
      obtain rfl := hdense.unique (Expression.dense_of_planted hplanted) hroom
      have hsame := parse_of_dense hword hcheck (e := ⟨draft.nodes, _⟩) hrun rfl hcanonical hdense
        hroom
      rw [hplanted.log] at hsame
      exact .inl ⟨_, _, hparse, hsame⟩
    · rename_i failure log' htree
      obtain ⟨error, draft, rfl, hrun, rfl⟩ := hread
      exact .inr ⟨error, draft.log, Expression.parse_of_tree_error hcheck htree,
        parse_of_read_error hword hcheck hrun⟩

/-- A blank of three bytes in the text does not upset the cuts. -/
theorem parse_safe_of_wide_blank :
    "x\u2003+1".utf8ByteSize = 6 ∧ ∃ e log', Expression.parse "x\u2003+1" #[] = .ok e log' ∧
      parse "x\u2003+1" #[] = .ok e log' := by
  have hreads : ReadAs "x\u2003+1".toList (.compound (.operation .add)
      [.literal ⟨"x", by decide⟩, .literal ⟨"1", by decide⟩]) :=
    ⟨List.all_eq_true.mp rfl, .operation (by decide) (by simp [Tree.content, Operator.admits])
      (by simp [Tree.Canonical.literal]), rfl⟩
  obtain ⟨e, -, -, haccepted⟩ := Expression.exists_parse hreads (by decide) #[]
  have hlength : "x\u2003+1".length ≤ 2 ^ 32 := by decide
  refine ⟨by decide, ?_⟩
  rcases parse_safe hlength #[] with hread | ⟨_, _, hrejected, -⟩
  · exact hread
  · cases haccepted.symm.trans hrejected

end ExprTree.Bytewise
