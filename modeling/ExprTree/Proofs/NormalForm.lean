import ExprTree.Proofs.Expression.Paths
import ExprTree.Proofs.Root

/-!
# What is flat stays flat

After a node has been flattened beneath, only an attachment can bring an operator beneath
its like again. An exchange permutes children, and flattening some other node finds nothing
to do there, except that it may take the node itself away. Parentheses are never spliced:
they stay where they are and have as many children as before.
-/

namespace ExprTree

open Run

namespace Subtree

/-- The subtree has these parentheses, with so many children. -/
def Encloses (t : Subtree) (id : NodeId) (count : Nat) : Prop :=
  ∃ part : Subtree, part.PartOf t ∧ part.id = id ∧ part.content = .compound .parentheses ∧
    part.children.length = count

theorem Reordered.encloses {t' t : Subtree} (h : t'.Reordered t) {id : NodeId} {count : Nat}
    (hencloses : t.Encloses id count) : t'.Encloses id count := by
  obtain ⟨part, hpart, rfl, hcontent, rfl⟩ := hencloses
  obtain ⟨part', hpart', hreordered⟩ := h.exists_partOf hpart
  exact ⟨part', hpart', hreordered.id_eq, hreordered.content_eq.trans hcontent,
    hreordered.length_children⟩

/-- Parentheses absorb no child. -/
theorem length_children_flat {t : Subtree} (h : t.content = .compound .parentheses) :
    t.flat.children.length = t.children.length := by
  cases t with
  | node id content children =>
    obtain rfl : content = .compound .parentheses := h
    rw [flat_node, absorb_eq_node fun child _ => by cases child.content <;> rfl]
    simp

end Subtree

namespace Expression

/-- No sum beneath `id` has a sum as its child, and no product has a product. -/
def FlatBeneath (e : Expression) (id : NodeId) : Prop :=
  ∀ outer inner operator, e.Beneath id outer → inner ∈ e.childrenOf outer →
    e.content outer = .ok (.compound (.operation operator)) →
    e.content inner ≠ .ok (.compound (.operation operator))

/-- The parentheses beneath `id` in `e` are beneath it in `e'` as well, and have as many
children there. -/
def KeepsParentheses (id : NodeId) (e e' : Expression) : Prop :=
  ∀ parens, e.Beneath id parens → e.content parens = .ok (.compound .parentheses) →
    e'.Beneath id parens ∧ e'.content parens = .ok (.compound .parentheses) ∧
      (e'.childrenOf parens).length = (e.childrenOf parens).length

namespace Stored

variable {e : Expression} {parent : Option NodeId} {t : Subtree}

theorem encloses_iff (h : e.Stored parent t) {id : NodeId} {count : Nat} :
    t.Encloses id count ↔ e.Beneath t.id id ∧ e.content id = .ok (.compound .parentheses) ∧
      (e.childrenOf id).length = count := by
  rw [h.beneath_iff]
  constructor
  · rintro ⟨part, hpart, rfl, hcontent, rfl⟩
    obtain ⟨above, hstored⟩ := h.of_partOf hpart
    refine ⟨hpart.id_mem_ids, ?_, ?_⟩
    · rw [content_ok hstored.node?_eq, hcontent]
    · rw [hstored.childrenOf_id, List.length_map]
  · rintro ⟨hid, hcontent, rfl⟩
    obtain ⟨part, hpart, rfl⟩ := Subtree.exists_partOf hid
    obtain ⟨above, hstored⟩ := h.of_partOf hpart
    rw [content_ok hstored.node?_eq, Except.ok.injEq] at hcontent
    refine ⟨part, hpart, rfl, hcontent, ?_⟩
    rw [hstored.childrenOf_id, List.length_map]

theorem flatBeneath (h : e.Stored parent t) (hflat : t.IsFlat) : e.FlatBeneath t.id := by
  intro outer inner operator houter hinner hcontent hsame
  obtain ⟨part, hpart, rfl⟩ := Subtree.exists_partOf (h.beneath_iff.mp houter)
  obtain ⟨above, hstored⟩ := h.of_partOf hpart
  rw [hstored.childrenOf_id] at hinner
  obtain ⟨child, hchild, rfl⟩ := List.mem_map.mp hinner
  rw [content_ok hstored.node?_eq, Except.ok.injEq] at hcontent
  rw [content_ok (hstored.child hchild).node?_eq, Except.ok.injEq] at hsame
  have habsorbs := (hflat.of_partOf hpart).absorbs_eq_false hchild
  change part.content = _ at hcontent
  change child.content = _ at hsame
  simp [hcontent, hsame, Content.absorbs, Compound.absorbs] at habsorbs

/-- Parentheses are not among the nodes that flattening removes. -/
theorem encloses_flat (h : e.Stored parent t) {id : NodeId} {count : Nat}
    (hencloses : t.Encloses id count) : t.flat.Encloses id count := by
  obtain ⟨part, hpart, rfl, hcontent, rfl⟩ := hencloses
  have hkept : part.id ∉ t.removed := by
    rw [Subtree.mem_removed_iff]
    rintro ⟨outer, houter, child, hchild, habsorbs, hid⟩
    obtain ⟨_, hstored⟩ := h.of_partOf hpart
    obtain ⟨_, hstored'⟩ := h.of_partOf houter
    obtain rfl := (hstored'.child hchild).unique hstored hid
    rw [hcontent] at habsorbs
    cases houtside : outer.content with
    | literal l => simp [houtside, Content.absorbs] at habsorbs
    | compound kind => cases kind <;> simp [houtside, Content.absorbs, Compound.absorbs] at habsorbs
  exact ⟨part.flat, hpart.flat hkept, part.id_flat, part.content_flat.trans hcontent,
    Subtree.length_children_flat hcontent⟩

end Stored

/-- A node without a parent is spliced away from nowhere. -/
theorem not_spliced_of_top {e : Expression} {top id : NodeId} (htop : e.parentOf id = none) :
    ¬ e.Spliced top id := by
  rintro ⟨above, _, _, _, hparent, -, -, -, hcontent, -⟩
  obtain ⟨node, hnode, -⟩ := exists_node?_of_content hcontent
  rw [parent_ok hnode, ← parentOf_eq hnode, htop] at hparent
  cases hparent

/-- The subtree beneath `id` is flat and has at least the given parentheses. -/
structure Retains (id : NodeId) (held : NodeId → Nat → Prop) (e : Expression) : Prop where
  forest : e.Forest
  subtree : ∃ parent t, e.Stored parent t ∧ t.id = id ∧ t.IsFlat ∧
    ∀ parens count, held parens count → t.Encloses parens count

namespace Retains

variable {e : Expression} {id : NodeId} {held : NodeId → Nat → Prop}

/-- A node that was spliced away has nothing beneath it. -/
theorem of_detached (hf : e.Forest) {content : Content}
    (hnode : e.node? id = some (Node.detached content)) : e.Retains id fun _ _ => False :=
  ⟨hf, none, .node id content [], .node hnode (fun _ => rfl) (by simp), rfl,
    .node (by simp) (by simp), fun _ _ => False.elim⟩

theorem flatBeneath (h : e.Retains id held) : e.FlatBeneath id := by
  obtain ⟨parent, t, hstored, rfl, hflat, -⟩ := h.subtree
  exact hstored.flatBeneath hflat

end Retains
end Expression

/-! ## Edits of what is flat -/

namespace Edit

open Expression

variable {draft draft' : Draft} {id : NodeId} {held : NodeId → Nat → Prop}

theorem retains_add (h : draft.Retains id held) (content : Content) :
    (draft.add content).Retains id held := by
  obtain ⟨parent, t, hstored, hrest⟩ := h.subtree
  refine ⟨h.forest.add content, parent, t, hstored.congr fun i hi => ?_, hrest⟩
  obtain ⟨above, part, hpart, rfl, -⟩ := hstored.exists_of_mem hi
  exact Draft.node?_add_of_lt (index_lt hpart.node?_eq)

theorem retains_swapChildren (parent first second : NodeId) :
    Preserves (Retains id held) (swapChildren parent first second) := by
  refine .swapChildren (fun hnode hperm h => ?_) parent first second
  obtain ⟨above, t, hstored, hid, hflat, hheld⟩ := h.subtree
  obtain ⟨t', hstored', hreordered⟩ := hstored.exists_reordered (Draft.permuted_arrange hnode hperm)
  exact ⟨h.forest.arrange hnode hperm, above, t', hstored', hreordered.id_eq.trans hid,
    hreordered.isFlat hflat, fun parens count h => hreordered.encloses (hheld parens count h)⟩

/-- Flattening anywhere leaves a flat subtree as it is, or splices its topmost node away and
leaves that node alone. -/
theorem retains_flattenBeneath (h : draft.Retains id held) (top : NodeId) :
    (final (flattenBeneath top draft)).Retains id held ∨
      draft.Spliced top id ∧ (final (flattenBeneath top draft)).Retains id fun _ _ => False := by
  obtain ⟨-, hsame⟩ | ⟨parent, s, rfl, hs, hflattened, hf'⟩ := final_flattenBeneath h.forest top
  · exact .inl (hsame.symm ▸ h)
  · obtain ⟨above, t, ht, rfl, hflat, hheld⟩ := h.subtree
    by_cases hgone : t.id ∈ s.removed
    · obtain ⟨content, hnode⟩ := hflattened.changed.detached t.id hgone
      exact .inr ⟨(h.forest.spliced_iff hs).mpr hgone, .of_detached hf' hnode⟩
    · refine .inl ⟨hf', ?_⟩
      by_cases hmem : t.id ∈ s.ids
      · obtain ⟨above', hstored⟩ :=
          hflattened.exists_stored_of_partOf (ht.partOf_of_mem hs hmem) hgone
        rw [hflat.eq.1] at hstored
        exact ⟨above', t, hstored, rfl, hflat, hheld⟩
      · have hstored := hflattened.stored_flatAt hs ht fun hmem' => absurd hmem' hmem
        rw [hflat.flatAt_eq] at hstored
        exact ⟨above, t, hstored, rfl, hflat, hheld⟩

theorem Flattened.retains {parent : Option NodeId} {t : Subtree}
    (h : Flattened draft draft' parent t) (hf' : draft'.Forest) (ht : draft.Stored parent t) :
    draft'.Retains t.id t.Encloses :=
  ⟨hf', parent, t.flat, h.stored, t.id_flat, t.isFlat_flat, fun _ _ => ht.encloses_flat⟩

end Edit

/-! ## Runs -/

namespace Operation

/-- The draft after some calls, one after the other. -/
def run (operations : List Operation) (draft : Draft) : Draft :=
  operations.foldl (fun draft operation => operation.after draft) draft

/-- Whether the call splices the node away. -/
def Splices (draft : Draft) (id : NodeId) : Operation → Prop
  | .flatten => draft.Spliced draft.root id
  | .flattenBeneath top => draft.Spliced top id
  | _ => False

/-- Whether one of the calls splices the node away. -/
def RunSplices (id : NodeId) : List Operation → Draft → Prop
  | [], _ => False
  | operation :: rest, draft =>
    operation.Splices draft id ∨ RunSplices id rest (operation.after draft)

variable {draft : Draft} {id : NodeId} {held : NodeId → Nat → Prop}

theorem retains (operation : Operation) (hattaches : operation.attaches = false)
    (h : draft.Retains id held) :
    (operation.after draft).Retains id held ∨
      operation.Splices draft id ∧ (operation.after draft).Retains id fun _ _ => False := by
  cases operation with
  | insert content => exact .inl (Edit.retains_add h content)
  | addChild parent child => cases hattaches
  | swapChildren parent first second =>
    exact .inl (Edit.retains_swapChildren parent first second draft h)
  | flatten => exact Edit.retains_flattenBeneath h draft.root
  | flattenBeneath top => exact Edit.retains_flattenBeneath h top
  | shift path offset =>
    exact .inl (Edit.Preserves.shift Edit.retains_swapChildren path offset draft h)

theorem retains_run {operations : List Operation}
    (hattaches : ∀ operation ∈ operations, operation.attaches = false)
    (h : draft.Retains id held) :
    (run operations draft).Retains id held ∨
      RunSplices id operations draft ∧ (run operations draft).Retains id fun _ _ => False := by
  induction operations generalizing draft held with
  | nil => exact .inl h
  | cons operation rest ih =>
    obtain ⟨hfirst, hrest⟩ := List.forall_mem_cons.mp hattaches
    cases operation.retains hfirst h with
    | inl hkept => exact (ih hrest hkept).imp_right fun ⟨hsplices, hlast⟩ => ⟨.inr hsplices, hlast⟩
    | inr hspliced =>
      obtain ⟨hsplices, hkept⟩ := hspliced
      exact .inr ⟨.inl hsplices, (ih hrest hkept).elim (fun h => h) And.right⟩

/-- Calls that attach nothing never splice a node away that has no parent. -/
theorem not_runSplices_of_top {operations : List Operation}
    (hattaches : ∀ operation ∈ operations, operation.attaches = false) (hf : draft.Forest)
    (htop : draft.parentOf id = none) : ¬ RunSplices id operations draft := by
  induction operations generalizing draft with
  | nil => exact fun h => h
  | cons operation rest ih =>
    obtain ⟨hfirst, hrest⟩ := List.forall_mem_cons.mp hattaches
    rintro (hsplices | hsplices)
    · cases operation <;> first | exact hsplices | exact Expression.not_spliced_of_top htop hsplices
    · exact ih hrest (operation.forest hf) (operation.parentOf_after_of_top hfirst hf htop) hsplices

end Operation

namespace Reachable

/-- Beneath a node that was flattened, no operator comes beneath its like by any calls that
attach nothing, and unless one of them splices the node away, the parentheses that were beneath
it before the flattening stay there with as many children as they had. -/
theorem stays_flat {e : Expression} (h : Reachable e) (hroom : e.size ≤ 2 ^ 32) (log : Log)
    {id : NodeId} (hid : id.index < e.size) :
    ∃ draft, Edit.flattenBeneath id ⟨e, log⟩ = .ok () draft ∧
      ∀ operations : List Operation, (∀ operation ∈ operations, operation.attaches = false) →
        (Operation.run operations draft).FlatBeneath id ∧
        (¬ Operation.RunSplices id operations draft →
          e.KeepsParentheses id (Operation.run operations draft).toExpression) := by
  have hf : (Draft.mk e log).Forest := h.forest hroom
  obtain ⟨t, rfl, ht⟩ := hf.exists_stored (Expression.node?_isSome_iff.mpr hid)
  obtain ⟨draft, hrun, hflattened, hf'⟩ := Edit.flattenBeneath_of_stored hf ht
  refine ⟨draft, hrun, fun operations hattaches => ?_⟩
  have hlast := Operation.retains_run hattaches (hflattened.retains hf' ht)
  refine ⟨hlast.elim Expression.Retains.flatBeneath fun h => h.2.flatBeneath, ?_⟩
  intro hkept parens hbeneath hcontent
  obtain ⟨above, s, hs, hsid, -, hheld⟩ := (hlast.resolve_right fun h => hkept h.1).subtree
  have hencloses := hheld parens _ (ht.encloses_iff.mpr ⟨hbeneath, hcontent, rfl⟩)
  rw [← hsid]
  exact hs.encloses_iff.mp hencloses

/-- A sum in a sum, with parentheses around a literal in the inner one. -/
theorem exists_parentheses_in_sum :
    ∃ e, Reachable e ∧ e.size = 5 ∧ e.parentOf ⟨0⟩ = none ∧
      e.tree ⟨0⟩ = .ok (.compound (.operation .add) [.compound (.operation .add)
        [.compound .parentheses [.literal ⟨"x", by decide⟩]], .literal ⟨"y", by decide⟩]) := by
  have hsum := Reachable.ofContent (.compound (.operation .add))
  have hinner :=
    (hsum.edit (.insert (.compound (.operation .add))) #[]).edit (.addChild ⟨0⟩ ⟨1⟩) #[]
  have hparens :=
    (hinner.edit (.insert (.compound .parentheses)) #[]).edit (.addChild ⟨1⟩ ⟨2⟩) #[]
  have hx := (hparens.edit (.insert (.literal ⟨"x", by decide⟩)) #[]).edit (.addChild ⟨2⟩ ⟨3⟩) #[]
  have hy := (hx.edit (.insert (.literal ⟨"y", by decide⟩)) #[]).edit (.addChild ⟨0⟩ ⟨4⟩) #[]
  exact ⟨_, hy, rfl, rfl, rfl⟩

/-- The inner sum is spliced away and its parentheses are not. The calls that follow add a node,
exchange two operands and flatten twice. -/
theorem stays_flat_of_sum :
    ∃ e draft last, Reachable e ∧ e.inline ⟨0⟩ = .ok "(x)+y" ∧
      Edit.flattenBeneath ⟨0⟩ ⟨e, #[]⟩ = .ok () draft ∧
      last = Operation.run [.insert (.compound .parentheses), .swapChildren ⟨0⟩ ⟨4⟩ ⟨2⟩,
        .flattenBeneath ⟨2⟩, .flatten] draft ∧
      last.FlatBeneath ⟨0⟩ ∧ e.KeepsParentheses ⟨0⟩ last.toExpression := by
  obtain ⟨e, he, hsize, htop, htree⟩ := exists_parentheses_in_sum
  have hid : NodeId.index ⟨0⟩ < e.size := hsize ▸ by decide
  obtain ⟨draft, hrun, hafter⟩ := stays_flat he (by omega) #[] hid
  have hf : (Draft.mk e #[]).Forest := he.forest (by omega)
  have hf' : draft.Forest := by
    simpa only [Operation.after, hrun, final_ok] using (Operation.flattenBeneath ⟨0⟩).forest hf
  have htop' : draft.parentOf ⟨0⟩ = none := by
    simpa only [hrun, final_ok] using Edit.parentOf_flattenBeneath hf htop ⟨0⟩
  have hattaches : ∀ operation ∈ [.insert (.compound .parentheses), .swapChildren ⟨0⟩ ⟨4⟩ ⟨2⟩,
      .flattenBeneath ⟨2⟩, .flatten], Operation.attaches operation = false := by
    simp [Operation.attaches]
  obtain ⟨hbeneath, hkept⟩ := hafter _ hattaches
  exact ⟨e, draft, _, he, Expression.inline_ok htree, hrun, rfl, hbeneath,
    hkept (Operation.not_runSplices_of_top hattaches hf' htop')⟩

end Reachable
end ExprTree
