import ExprTree.Proofs.Expression.Walk
import ExprTree.Proofs.Parsing
import Mathlib.Data.List.ReduceOption

/-!
# Records of reading

Reading a text leaves one record for each cut of a fragment. The fragments that are cut
are the inline forms of the sums and products that come out, so that the records can be
read off the expression in the order of a walk. The flattening at the end of reading finds
nothing to do and leaves no record.
-/

namespace ExprTree

namespace Tree

theorem allSplittings_eq (trees : List Tree) :
    allSplittings trees = trees.flatMap splittings := by
  induction trees with
  | nil => rfl
  | cons tree rest ih => rw [allSplittings, ih, List.flatMap_cons]

/-- Reading a tree leaves no other records than those of the cuts. -/
theorem eq_splitting_of_mem {tree : Tree} {record : Record} (h : record ∈ tree.splittings) :
    ∃ fragment count operator, record = .splitting fragment count operator := by
  induction tree with
  | literal l => cases h
  | compound kind children ih =>
    have hbelow : record ∈ allSplittings children →
        ∃ fragment count operator, record = .splitting fragment count operator := by
      rw [allSplittings_eq, List.mem_flatMap]
      rintro ⟨child, hchild, hmem⟩
      exact ih child hchild hmem
    cases kind with
    | parentheses => exact hbelow h
    | operation operator =>
      rcases List.mem_cons.mp h with rfl | h
      · exact ⟨_, _, _, rfl⟩
      · exact hbelow h

end Tree

namespace Expression

/-- The record that reading leaves about a node of the expression: one for a sum or a product,
none for anything else. -/
def splittingAt (e : Expression) (id : NodeId) : Except Fault (Option Record) := do
  let node ← e.node id
  match node.content with
  | .compound (.operation operator) =>
    return some (.splitting (← e.inline id) node.children.size operator)
  | _ => return none

namespace Stored

variable {e : Expression} {parent : Option NodeId} {t : Subtree}

/-- The record about the topmost node comes before those about everything beneath it. -/
theorem exists_splittingAt (h : e.Stored parent t) (hnodup : t.ids.Nodup) :
    ∃ record, e.splittingAt t.id = .ok record ∧
      t.tree.splittings = record.toList ++ Tree.allSplittings (t.children.map Subtree.tree) := by
  have hinline := inline_ok (h.tree_eq hnodup)
  cases h with
  | @node _ id content children hnode hleaf _ =>
    rw [Subtree.id_node] at hinline
    rw [Subtree.id_node, splittingAt, node_ok_iff.mpr hnode]
    cases content with
    | literal l =>
      obtain rfl := hleaf rfl
      exact ⟨none, rfl, by simp [Tree.splittings, Tree.allSplittings]⟩
    | compound kind =>
      rw [Subtree.tree_compound] at hinline ⊢
      cases kind with
      | parentheses => exact ⟨none, rfl, rfl⟩
      | operation operator =>
        refine ⟨some (.splitting (Tree.compound (.operation operator)
          (children.map Subtree.tree)).inline children.length operator), ?_, ?_⟩
        · change (do
            let fragment ← e.inline id
            return some (Record.splitting fragment (children.map Subtree.id).toArray.size operator)) = _
          rw [hinline, List.size_toArray, List.length_map]
          rfl
        · simp [Tree.splittings]

private theorem exists_mapM_flatMap {look : NodeId → Except Fault (Option Record)}
    {children : List Subtree}
    (h : ∀ child ∈ children, ∃ records, child.ids.mapM look = .ok records ∧
      records.reduceOption = child.tree.splittings) :
    ∃ records, (children.flatMap Subtree.ids).mapM look = .ok records ∧
      records.reduceOption = Tree.allSplittings (children.map Subtree.tree) := by
  induction children with
  | nil => exact ⟨[], rfl, rfl⟩
  | cons child rest ih =>
    obtain ⟨hfirst, hrest⟩ := List.forall_mem_cons.mp h
    obtain ⟨records, hlook, hrecords⟩ := hfirst
    obtain ⟨later, hlooks, hlater⟩ := ih hrest
    refine ⟨records ++ later, ?_, ?_⟩
    · rw [List.flatMap_cons, List.mapM_append, hlook, hlooks]
      rfl
    · rw [List.reduceOption_append, hrecords, hlater, List.map_cons, Tree.allSplittings]

/-- The records of reading a tree are those about its nodes in the order of a walk. -/
theorem exists_mapM_splittingAt (h : e.Stored parent t) (hnodup : t.ids.Nodup) :
    ∃ records, t.ids.mapM e.splittingAt = .ok records ∧
      records.reduceOption = t.tree.splittings := by
  induction h with
  | @node parent id content children hnode hleaf hchildren ih =>
    obtain ⟨record, hself, hrecord⟩ :=
      (Stored.node hnode hleaf hchildren).exists_splittingAt hnodup
    obtain ⟨below, hbelow, hrecords⟩ := exists_mapM_flatMap fun child hchild =>
      ih child hchild (hnodup.sublist (Subtree.ids_sublist_of_mem hchild))
    rw [Subtree.id_node] at hself
    refine ⟨record :: below, ?_, ?_⟩
    · rw [Subtree.ids_node, List.mapM_cons, hself, hbelow]
      rfl
    · rw [hrecord, Subtree.children_node, ← hrecords]
      cases record <;> rfl

end Stored

/-- Reading leaves a record for each sum and each product of the result, in the order of a walk,
with its inline form and the number of its operands; then one for the text as a whole. The
flattening in between changes nothing and leaves no record. -/
theorem log_of_parse {text : String} (hlength : text.length ≤ 2 ^ 32) {log log' : Log}
    {e : Expression} (h : parse text log = .ok e log') :
    ∃ order records outline, e.walk e.root = .ok order ∧
      order.mapM e.splittingAt = .ok records ∧ e.outline e.root 0 = .ok outline ∧
      log' = (log ++ records.reduceOption).push
        (.parsed (String.ofList (withoutBlanks text.toList)) outline) ∧
      (∀ record ∈ records.reduceOption, ∃ fragment count operator,
        record = .splitting fragment count operator ∧
        record.line = "TRACE splitting `" ++ fragment ++ "` into " ++ toString count ++
          " operands of " ++ operator.name) ∧
      (Record.parsed (String.ofList (withoutBlanks text.toList)) outline).line =
        "DEBUG parsed `" ++ String.ofList (withoutBlanks text.toList) ++ "`:\n" ++ outline ∧
      ∃ tree, Tree.parse (withoutBlanks text.toList) log = .ok tree (log ++ records.reduceOption) ∧
        ofTree tree = .ok e ∧
        Edit.flatten ⟨e, log ++ records.reduceOption⟩ =
          .ok () ⟨e, log ++ records.reduceOption⟩ := by
  have hroom : e.size ≤ 2 ^ 32 := (size_le_of_parse h).trans hlength
  obtain ⟨tree, hreads, hof, hdense⟩ := of_parse_eq_ok h hroom
  obtain ⟨e', hof', -, hparse⟩ := exists_parse hreads (hdense.size ▸ hroom) log
  obtain rfl := Except.ok.inj (hof.symm.trans hof')
  rw [hparse] at h
  cases h
  have hf := hdense.forest hroom
  have hwalk := hf.walk_eq hdense.stored
  obtain ⟨records, hrecords, hsplittings⟩ :=
    hdense.stored.exists_mapM_splittingAt (hdense.nodup_ids hroom)
  rw [hdense.id_number_eq] at hwalk
  rw [Tree.tree_number] at hsplittings
  refine ⟨_, records, _, hwalk, hrecords, outline_ok (hdense.tree_eq hroom) 0, ?_, ?_, rfl, tree, ?_,
    hof, flatten_of_dense hreads.canonical hdense hroom⟩
  · rw [hsplittings]
  · intro record hrecord
    obtain ⟨fragment, count, operator, rfl⟩ := Tree.eq_splitting_of_mem (hsplittings ▸ hrecord)
    exact ⟨fragment, count, operator, rfl, rfl⟩
  · rw [hsplittings]
    exact Tree.parse_eq_ok_iff.mpr ⟨hreads.canonical, hreads.text_eq, rfl⟩

/-- The sum is cut before the product in it. -/
theorem log_of_parse_sum :
    ∃ e log' order records, parse "1+x*y" #[] = .ok e log' ∧ e.walk e.root = .ok order ∧
      order.mapM e.splittingAt = .ok records ∧ records.reduceOption =
        [.splitting "1+x*y" 2 .add, .splitting "x*y" 2 .multiply] := by
  have hproduct : (Tree.compound (.operation .multiply)
      [.literal ⟨"x", by decide⟩, .literal ⟨"y", by decide⟩]).Canonical :=
    .operation (by decide) (by simp [Tree.content, Operator.admits])
      (by simp [Tree.Canonical.literal])
  have hreads : ReadAs "1+x*y".toList (.compound (.operation .add)
      [.literal ⟨"1", by decide⟩, .compound (.operation .multiply)
        [.literal ⟨"x", by decide⟩, .literal ⟨"y", by decide⟩]]) :=
    ⟨List.all_eq_true.mp rfl, .operation (by decide) (by simp [Tree.content, Operator.admits])
      (by simp [Tree.Canonical.literal, hproduct]), rfl⟩
  obtain ⟨e, -, -, hparse⟩ := exists_parse hreads (by decide) #[]
  obtain ⟨order, records, outline, hwalk, hrecords, -, hlog, -⟩ :=
    log_of_parse (by decide) hparse
  refine ⟨e, _, order, records, hparse, hwalk, hrecords, ?_⟩
  have hsame := congrArg Array.toList (Array.push_eq_push.mp hlog).2
  rw [Array.toList_appendList, Array.toList_appendList, List.append_cancel_left_eq] at hsame
  exact hsame.symm.trans rfl

end Expression
end ExprTree
