import ExprTree.Proofs.Edit.Contents
import ExprTree.Proofs.Edit.Flatten
import ExprTree.Proofs.Edit.Plant
import ExprTree.Proofs.Tree.Reading

/-!
# Expressions from texts

Reading a text means to check it, to read its tree, to plant the tree and to flatten
the expression that results. The trees that are read are canonical, hence flat
already, so that the last step changes nothing: the expression is the planted tree.
-/

namespace ExprTree

open Run

/-! ## Checking a text -/

theorem firstForeign?_eq_none_iff {text : List Char} :
    firstForeign? text = none ↔ ∀ c ∈ text, isAllowed c = true := by
  rw [firstForeign?, List.find?_eq_none]
  simp only [Bool.not_eq_true', Bool.not_eq_false]
  constructor
  · intro h c hc
    obtain ⟨i, hi, rfl⟩ := List.getElem_of_mem hc
    exact h (text[i], i) (List.mk_mem_zipIdx_iff_getElem?.mpr (List.getElem?_eq_getElem hi))
  · rintro h ⟨c, i⟩ hmem
    exact h c (List.mem_of_getElem? (List.mk_mem_zipIdx_iff_getElem?.mp hmem))

theorem checkText_eq_ok_iff {text s : List Char} :
    checkText text = .ok s ↔
      (∀ c ∈ text, isAllowed c = true) ∧ Balanced s ∧ s = withoutBlanks text := by
  rw [← firstForeign?_eq_none_iff]
  unfold checkText
  cases firstForeign? text with
  | some foreign => simp
  | none =>
    by_cases hbalanced : isBalanced (withoutBlanks text) = true
    · simp only [hbalanced, if_true, true_and, Except.ok.injEq]
      constructor
      · rintro rfl
        exact ⟨isBalanced_iff.mp hbalanced, rfl⟩
      · rintro ⟨-, rfl⟩
        rfl
    · simp only [hbalanced, true_and]
      constructor
      · intro h
        cases h
      · rintro ⟨h, rfl⟩
        exact absurd (isBalanced_iff.mpr h) hbalanced

/-- The tree that a text is read as. -/
structure ReadAs (text : List Char) (tree : Tree) : Prop where
  allowed : ∀ c ∈ text, isAllowed c = true
  canonical : tree.Canonical
  text_eq : tree.text = withoutBlanks text

theorem ReadAs.checkText_eq {text : List Char} {tree : Tree} (h : ReadAs text tree) :
    checkText text = .ok (withoutBlanks text) :=
  checkText_eq_ok_iff.mpr ⟨h.allowed, h.text_eq ▸ h.canonical.balanced, rfl⟩

theorem ReadAs.size_le {text : List Char} {tree : Tree} (h : ReadAs text tree) :
    tree.size ≤ text.length :=
  h.canonical.size_le_length_text.trans (h.text_eq ▸ List.length_filter_le _ _)

namespace Traced

variable {α : Type} {a : α} {log log' : Log}

theorem lift_parseError_eq_ok_iff {x : Except ParseError α} :
    (liftM x : Traced ParseFailure α) log = .ok a log' ↔ x = .ok a ∧ log = log' := by
  change EStateM.adaptExcept ParseFailure.rejected (ofExcept x) log = _ ↔ _
  rw [adaptExcept_eq_ok_iff, ofExcept_eq_ok_iff]

theorem lift_fault_eq_ok_iff {x : Except Fault α} :
    (liftM x : Traced ParseFailure α) log = .ok a log' ↔ x = .ok a ∧ log = log' := by
  change EStateM.adaptExcept ParseFailure.fault (ofExcept x) log = _ ↔ _
  rw [adaptExcept_eq_ok_iff, ofExcept_eq_ok_iff]

theorem lift_eq_ok_iff {x : Traced Fault α} :
    (liftM x : Traced ParseFailure α) log = .ok a log' ↔ x log = .ok a log' :=
  adaptExcept_eq_ok_iff

end Traced

namespace Expression

variable {text : String} {log log' : Log} {e : Expression}

theorem perform_eq_ok_iff {ε : Type} {edit : Edit ε Unit} {before : Expression} :
    edit.perform before log = .ok e log' ↔ edit ⟨before, log⟩ = .ok () ⟨e, log'⟩ := by
  unfold Edit.perform
  split
  · rename_i draft hrun
    rw [hrun]
    cases draft
    simp
  · rename_i hrun
    rw [hrun]
    simp

/-- Reading a text by way of any reader of trees. -/
def parseBy (read : List Char → Traced ParseFailure Tree) (text : String) :
    Traced ParseFailure Expression := do
  let s ← checkText text.toList
  let tree ← read s
  let planted ← ofTree tree
  let e ← Edit.flatten.perform planted
  Traced.emit (.parsed (String.ofList s) (← e.outline e.root 0))
  return e

/-- Reading a text succeeds when all of its steps do. -/
theorem parseBy_eq_ok_iff {read : List Char → Traced ParseFailure Tree} :
    parseBy read text log = .ok e log' ↔ ∃ s tree middle planted last outline,
      checkText text.toList = .ok s ∧ read s log = .ok tree middle ∧
      ofTree tree = .ok planted ∧ Edit.flatten ⟨planted, middle⟩ = .ok () ⟨e, last⟩ ∧
      e.outline e.root 0 = .ok outline ∧ log' = last.push (.parsed (String.ofList s) outline) := by
  unfold parseBy
  simp only [bind_eq_ok_iff, pure_eq_ok_iff, Traced.lift_parseError_eq_ok_iff,
    Traced.lift_fault_eq_ok_iff, Traced.lift_eq_ok_iff, perform_eq_ok_iff]
  constructor
  · rintro ⟨s, _, ⟨hcheck, rfl⟩, tree, middle, htree, planted, _, ⟨hplant, rfl⟩, e, last, hflat,
      outline, _, ⟨houtline, rfl⟩, _, log', hemit, rfl, rfl⟩
    cases hemit
    exact ⟨s, tree, middle, planted, last, outline, hcheck, htree, hplant, hflat, houtline, rfl⟩
  · rintro ⟨s, tree, middle, planted, last, outline, hcheck, htree, hplant, hflat, houtline, rfl⟩
    exact ⟨s, log, ⟨hcheck, rfl⟩, tree, middle, htree, planted, middle, ⟨hplant, rfl⟩, e, last,
      hflat, outline, last, ⟨houtline, rfl⟩, (), _, rfl, rfl, rfl⟩

theorem parse_eq_ok_iff :
    parse text log = .ok e log' ↔ ∃ s tree middle planted last outline,
      checkText text.toList = .ok s ∧ Tree.parse s log = .ok tree middle ∧
      ofTree tree = .ok planted ∧ Edit.flatten ⟨planted, middle⟩ = .ok () ⟨e, last⟩ ∧
      e.outline e.root 0 = .ok outline ∧ log' = last.push (.parsed (String.ofList s) outline) :=
  parseBy_eq_ok_iff

/-- The expression of a canonical tree is flat already, and its levels are enough to see that. -/
theorem flattenWithin_of_dense {tree : Tree} (hcanonical : tree.Canonical) (h : e.Dense tree)
    (hroom : e.size ≤ 2 ^ 32) {levels : Nat} (hlevels : (tree.number 0).height ≤ levels) :
    Edit.flattenWithin levels e.root ⟨e, log⟩ = .ok () ⟨e, log⟩ := by
  have hstored : (Draft.mk e log).Stored none (tree.number 0) := h.stored
  obtain ⟨draft, hrun, hflat⟩ := Edit.flattenWithin_stored hlevels hstored (h.nodup_ids hroom)
  obtain rfl := hflat.eq_of_isFlat hstored
    (Edit.isFlat_of_canonical hstored ((Tree.tree_number 0 tree).symm ▸ hcanonical)) hroom
  rwa [h.id_number_eq] at hrun

theorem flatten_of_dense {tree : Tree} (hcanonical : tree.Canonical) (h : e.Dense tree)
    (hroom : e.size ≤ 2 ^ 32) : Edit.flatten ⟨e, log⟩ = .ok () ⟨e, log⟩ :=
  flattenWithin_of_dense hcanonical h hroom (h.stored.height_le (h.nodup_ids hroom))

/-- A text that stands for a tree is read as the planted tree. -/
theorem exists_parse {tree : Tree} (h : ReadAs text.toList tree) (hroom : tree.size ≤ 2 ^ 32)
    (log : Log) :
    ∃ e, ofTree tree = .ok e ∧ e.Dense tree ∧
      parse text log = .ok e ((log ++ tree.splittings).push
        (.parsed (String.ofList (withoutBlanks text.toList)) (tree.outline 0))) := by
  obtain ⟨e, hof, hdense⟩ := exists_ofTree hroom
  have hroom' : e.size ≤ 2 ^ 32 := hdense.size ▸ hroom
  exact ⟨e, hof, hdense, parse_eq_ok_iff.mpr ⟨_, tree, _, e, _, _, h.checkText_eq,
    Tree.parse_eq_ok_iff.mpr ⟨h.canonical, h.text_eq, rfl⟩, hof,
    flatten_of_dense h.canonical hdense hroom', outline_ok (hdense.tree_eq hroom') 0, rfl⟩⟩

/-- Behind every success stands a tree that was planted and then flattened. -/
theorem exists_readAs_of_parse (h : parse text log = .ok e log') :
    ∃ tree planted middle last, ReadAs text.toList tree ∧ ofTree tree = .ok planted ∧
      Edit.flatten ⟨planted, middle⟩ = .ok () ⟨e, last⟩ := by
  obtain ⟨s, tree, middle, planted, last, outline, hcheck, htree, hplant, hflat, -, -⟩ :=
    parse_eq_ok_iff.mp h
  obtain ⟨hallowed, -, rfl⟩ := checkText_eq_ok_iff.mp hcheck
  obtain ⟨hcanonical, htext, -⟩ := Tree.parse_eq_ok_iff.mp htree
  exact ⟨tree, planted, middle, last, ⟨hallowed, hcanonical, htext⟩, hplant, hflat⟩

theorem size_le_of_parse (h : parse text log = .ok e log') : e.size ≤ text.length := by
  obtain ⟨tree, planted, middle, last, hreads, hplant, hflat⟩ := exists_readAs_of_parse h
  rw [Edit.keeps_flatten.size_eq hflat, size_of_ofTree hplant, ← String.length_toList]
  exact hreads.size_le

/-- Every expression that is read from a text is the planted tree of that text. -/
theorem of_parse_eq_ok (h : parse text log = .ok e log') (hroom : e.size ≤ 2 ^ 32) :
    ∃ tree, ReadAs text.toList tree ∧ ofTree tree = .ok e ∧ e.Dense tree := by
  obtain ⟨tree, planted, middle, last, hreads, hplant, hflat⟩ := exists_readAs_of_parse h
  have hsize : e.size = planted.size := Edit.keeps_flatten.size_eq hflat
  have hroom' : tree.size ≤ 2 ^ 32 := by rwa [← size_of_ofTree hplant, ← hsize]
  obtain ⟨e', hof, hdense⟩ := exists_ofTree hroom'
  obtain rfl := Except.ok.inj (hplant.symm.trans hof)
  rw [flatten_of_dense hreads.canonical hdense (hdense.size ▸ hroom')] at hflat
  cases hflat
  exact ⟨tree, hreads, hof, hdense⟩

/-- The texts that are accepted are those that stand for a tree. -/
theorem accepts_iff_readAs (hlength : text.length ≤ 2 ^ 32) :
    (∃ e log', parse text log = .ok e log') ↔ ∃ tree, ReadAs text.toList tree := by
  constructor
  · rintro ⟨e, log', h⟩
    obtain ⟨tree, -, -, -, hreads, -⟩ := exists_readAs_of_parse h
    exact ⟨tree, hreads⟩
  · rintro ⟨tree, h⟩
    have hroom : tree.size ≤ 2 ^ 32 := h.size_le.trans (String.length_toList ▸ hlength)
    obtain ⟨e, -, -, hparse⟩ := exists_parse h hroom log
    exact ⟨e, _, hparse⟩

end Expression

end ExprTree
