import ExprTree.Proofs.Copying

/-!
# Writing and reading

Reading a text and writing the result gives the text back, without its blanks, and
the tree in between is canonical. In the other direction, writing a canonical part of
any reachable expression and reading the text gives the copy of that part.
-/

namespace ExprTree

theorem isBlank_of_isLiteralChar {c : Char} (h : isLiteralChar c = true) : isBlank c = false := by
  have hrange : (decide (48 ≤ c.val) && decide (c.val ≤ 57) ||
      decide (97 ≤ c.val) && decide (c.val ≤ 122)) = true := h
  simp only [Bool.or_eq_true, Bool.and_eq_true, decide_eq_true_eq, UInt32.le_iff_toNat_le] at hrange
  simp only [isBlank, blankRanges, List.any_cons, List.any_nil, Bool.or_false,
    Bool.or_eq_false_iff, Bool.and_eq_false_iff, decide_eq_false_iff_not, UInt32.le_iff_toNat_le]
  simp at hrange ⊢
  omega

/-- The inline form of a canonical tree is written with allowed characters and no blanks. -/
theorem Tree.Canonical.isAllowed_of_mem {tree : Tree} (h : tree.Canonical) {c : Char}
    (hc : c ∈ tree.text) : isAllowed c = true ∧ isBlank c = false := by
  induction h with
  | literal l =>
    have hliteral := l.isLiteralChar_of_mem hc
    exact ⟨by simp [isAllowed, hliteral], isBlank_of_isLiteralChar hliteral⟩
  | parentheses _ ih =>
    simp only [text_parentheses, List.mem_cons, List.mem_append, List.not_mem_nil, or_false] at hc
    rcases hc with rfl | hc | rfl
    · decide
    · exact ih hc
    · decide
  | @operation operator children _ _ _ ih =>
    rw [text_operation] at hc
    rcases mem_intercalate hc with rfl | ⟨part, hpart, hc⟩
    · cases operator <;> decide
    · obtain ⟨child, hchild, rfl⟩ := List.mem_map.mp hpart
      exact ih child hchild hc

theorem Tree.Canonical.readAs_inline {tree : Tree} (h : tree.Canonical) :
    ReadAs tree.inline.toList tree where
  allowed _ hc := (h.isAllowed_of_mem hc).1
  canonical := h
  text_eq := by
    symm
    apply List.filter_eq_self.mpr
    intro c hc
    simp [(h.isAllowed_of_mem hc).2]

theorem Operator.ne_of_admits {operator : Operator} {content : Content}
    (h : operator.admits content = true) : content ≠ .compound (.operation operator) := by
  rintro rfl
  cases operator <;> simp [admits] at h

namespace Expression

/-- Every part of what is stored is canonical when the whole is. -/
theorem Stored.exists_canonical_of_mem {e : Expression} {parent : Option NodeId} {t : Subtree}
    (h : e.Stored parent t) (hcanonical : t.tree.Canonical) {id : NodeId} (hid : id ∈ t.ids) :
    ∃ above part, e.Stored above part ∧ part.id = id ∧ part.tree.Canonical := by
  induction h with
  | @node parent root content children hnode hleaf hchildren ih =>
    obtain rfl | ⟨child, hchild, hid⟩ := Subtree.mem_ids_node.mp hid
    · exact ⟨parent, _, .node hnode hleaf hchildren, rfl, hcanonical⟩
    · apply ih child hchild ?_ hid
      cases content with
      | literal l => simp [hleaf rfl] at hchild
      | compound kind =>
        rw [Subtree.tree_compound] at hcanonical
        exact (hcanonical.of_mem (List.mem_map_of_mem hchild)).1

/-- What the children of a node in a canonical tree are like. -/
structure CanonicalAt (e : Expression) (node : Node) : Prop where
  parentheses : node.content = .compound .parentheses → node.children.size = 1
  operands : ∀ operator, node.content = .compound (.operation operator) →
    2 ≤ node.children.size
  distinct : ∀ operator, node.content = .compound (.operation operator) →
    ∀ child ∈ node.children, ∃ content, e.content child = .ok content ∧
      content ≠ .compound (.operation operator)
  precedence : node.content = .compound (.operation .multiply) →
    ∀ child ∈ node.children, ∃ content, e.content child = .ok content ∧
      content ≠ .compound (.operation .add)

theorem Stored.canonicalAt {e : Expression} {parent : Option NodeId} {t : Subtree}
    (h : e.Stored parent t) (hcanonical : t.tree.Canonical) {node : Node}
    (hnode : e.node? t.id = some node) : e.CanonicalAt node := by
  obtain rfl := Option.some.inj (h.node?_eq.symm.trans hnode)
  have hchildren : ∀ child ∈ (t.children.map Subtree.id).toArray, ∃ sub ∈ t.children,
      e.content child = .ok sub.tree.content := by
    intro child hchild
    obtain ⟨sub, hsub, rfl⟩ := List.mem_map.mp (List.mem_toArray.mp hchild)
    exact ⟨sub, hsub, by rw [Subtree.content_tree, content_ok (h.child hsub).node?_eq]⟩
  cases t with
  | node id content children =>
    cases content with
    | literal l => constructor <;> simp
    | compound kind =>
      rw [Subtree.tree_compound] at hcanonical
      generalize hsubtrees : children.map Subtree.tree = subtrees at hcanonical
      have hlength : children.length = subtrees.length := by
        rw [← hsubtrees, List.length_map]
      cases hcanonical with
      | parentheses hinner => constructor <;> simp [hlength]
      | @operation operator _ htwo hadmits _ =>
        have hoperand : ∀ child ∈ (children.map Subtree.id).toArray, ∃ content,
            e.content child = .ok content ∧ operator.admits content = true := by
          intro child hchild
          obtain ⟨sub, hsub, hcontent⟩ := hchildren child hchild
          exact ⟨_, hcontent, hadmits _ (hsubtrees ▸ List.mem_map_of_mem hsub)⟩
        refine ⟨by simp, fun _ _ => by simpa [hlength] using htwo, ?_, ?_⟩
        · intro outer houter child hchild
          obtain ⟨content, hcontent, hadmits⟩ := hoperand child hchild
          obtain rfl : operator = outer := by simpa using houter
          exact ⟨content, hcontent, Operator.ne_of_admits hadmits⟩
        · intro houter child hchild
          obtain ⟨content, hcontent, hadmits⟩ := hoperand child hchild
          obtain rfl : operator = .multiply := by simpa using houter
          refine ⟨content, hcontent, ?_⟩
          rintro rfl
          simp [Operator.admits] at hadmits

/-- Reading a text and writing the result removes the blanks and does nothing else. The
tree is canonical at every node. -/
theorem inline_of_parse {text : String} (hlength : text.length ≤ 2 ^ 32) {log log' : Log}
    {e : Expression} (h : parse text log = .ok e log') :
    e.inline e.root = .ok (String.ofList (withoutBlanks text.toList)) ∧
      (∃ tree, e.tree e.root = .ok tree ∧ tree.Canonical) ∧
      (∀ id node, e.node id = .ok node → e.CanonicalAt node) ∧
      e.parent e.root = .ok none := by
  have hroom : e.size ≤ 2 ^ 32 := (size_le_of_parse h).trans hlength
  obtain ⟨tree, hreads, -, hdense⟩ := of_parse_eq_ok h hroom
  have htree := hdense.tree_eq hroom
  have hf := hdense.forest hroom
  refine ⟨?_, ⟨tree, htree, hreads.canonical⟩, ?_, ?_⟩
  · have htext : tree.inline = String.ofList (withoutBlanks text.toList) := by
      rw [← hreads.text_eq, Tree.text, String.ofList_toList]
    rw [inline, htree, ← htext]
    rfl
  · intro id node hnode
    rw [node_ok_iff] at hnode
    have hid : id ∈ (tree.number 0).ids := by
      have hlt := index_lt hnode
      rw [hdense.size] at hlt hroom
      exact (Tree.mem_ids_number (by omega)).mpr ⟨Nat.zero_le _, by omega⟩
    have hcanonical : (tree.number 0).tree.Canonical := by
      rw [Tree.tree_number]
      exact hreads.canonical
    obtain ⟨above, part, hpart, rfl, hcanonical⟩ :=
      hdense.stored.exists_canonical_of_mem hcanonical hid
    exact hpart.canonicalAt hcanonical hnode
  · obtain ⟨root, hroot⟩ := node?_isSome_iff.mpr hf.root
    rw [parent_ok hroot, ← parentOf_eq hroot, hdense.parentOf_root]

/-- A text with a blank and a leading zero. -/
theorem inline_of_parse_sum :
    ∃ e log', parse "01 +x" #[] = .ok e log' ∧ e.inline e.root = .ok "01+x" := by
  have hreads : ReadAs "01 +x".toList (.compound (.operation .add)
      [.literal ⟨"01", by decide⟩, .literal ⟨"x", by decide⟩]) :=
    ⟨List.all_eq_true.mp rfl, .operation (by decide) (by simp [Tree.content, Operator.admits])
      (by simp [Tree.Canonical.literal]), rfl⟩
  obtain ⟨e, -, -, hparse⟩ := exists_parse hreads (by decide) #[]
  exact ⟨e, _, hparse, (inline_of_parse (by decide) hparse).1⟩

/-- Reading the inline form of a canonical part of a reachable expression gives the copy of
that part, node by node. -/
theorem parse_inline_eq_copy {e : Expression} (h : Reachable e) (hroom : e.size ≤ 2 ^ 32)
    {id : NodeId} (hid : id.index < e.size) :
    ∃ tree, e.tree id = .ok tree ∧
      (tree.Canonical → ∃ text copied, e.inline id = .ok text ∧ e.copy id = .ok copied ∧
        e.copyByNodes id = .ok copied ∧ copied.tree copied.root = .ok tree ∧
        ∀ log, ∃ log', parse text log = .ok copied log') := by
  obtain ⟨t, rfl, hstored, hnodup, htree⟩ :=
    (h.forest hroom).exists_tree (node?_isSome_iff.mpr hid)
  obtain ⟨copied, hcopy, hcopyByNodes, hdense, hroom'⟩ := hstored.exists_copy hnodup hroom
  refine ⟨t.tree, htree, ?_⟩
  intro hcanonical
  refine ⟨t.tree.inline, copied, inline_ok htree, hcopy, hcopyByNodes, hdense.tree_eq hroom', ?_⟩
  intro log
  obtain ⟨e', -, hdense', hparse⟩ :=
    exists_parse hcanonical.readAs_inline (hdense.size ▸ hroom') log
  obtain rfl := hdense.unique hdense' hroom'
  exact ⟨_, hparse⟩

/-- A sum of two literals that was put together by hand. -/
theorem parse_inline_eq_copy_of_sum :
    ∃ e copied, Reachable e ∧ e.size = 3 ∧ e.inline ⟨0⟩ = .ok "1+x" ∧
      e.copy ⟨0⟩ = .ok copied ∧ e.copyByNodes ⟨0⟩ = .ok copied ∧
      copied.inline copied.root = .ok "1+x" ∧ ∀ log, ∃ log', parse "1+x" log = .ok copied log' := by
  have hsum := Reachable.ofContent (.compound (.operation .add))
  have hone := (hsum.edit (.insert (.literal ⟨"1", by decide⟩)) #[]).edit (.addChild ⟨0⟩ ⟨1⟩) #[]
  have htwo := (hone.edit (.insert (.literal ⟨"x", by decide⟩)) #[]).edit (.addChild ⟨0⟩ ⟨2⟩) #[]
  have hid : NodeId.index ⟨0⟩ < 3 := by decide
  obtain ⟨tree, htree, hread⟩ := parse_inline_eq_copy htwo (by decide) hid
  have htree' : Except.ok (.compound (.operation .add)
      [.literal ⟨"1", by decide⟩, .literal ⟨"x", by decide⟩]) = Except.ok tree := htree
  obtain rfl := Except.ok.inj htree'
  obtain ⟨text, copied, hinline, hcopied, hcopiedByNodes, hcopiedTree, hparse⟩ := hread
    (.operation (by decide) (by simp [Tree.content, Operator.admits])
      (by simp [Tree.Canonical.literal]))
  have htext : Except.ok "1+x" = Except.ok text := hinline
  obtain rfl := Except.ok.inj htext
  exact ⟨_, copied, htwo, rfl, hinline, hcopied, hcopiedByNodes, inline_ok hcopiedTree, hparse⟩

end Expression
end ExprTree
