import ExprTree.Edit.Flatten
import ExprTree.Edit.Plant
import ExprTree.Proofs.Edit.Preserves
import ExprTree.Proofs.Tree.Basic

/-!
# Edits and contents

What a node holds is settled when it is added. Edits rearrange the links between
nodes and may fail halfway, but they neither remove a node nor change its content,
and only `insert` adds one.
-/

namespace ExprTree

def Expression.contents (e : Expression) : Array Content :=
  e.nodes.map Node.content

theorem Expression.size_eq_size_contents (e : Expression) : e.size = e.contents.size :=
  Array.size_map.symm

/-- The expression has this root and these contents, position by position. -/
def Expression.Holds (root : NodeId) (contents : Array Content) (e : Expression) : Prop :=
  e.root = root ∧ e.contents = contents

namespace Edit

open Run

/-- The edit keeps the root and the contents of all nodes, also when it fails. -/
def Keeps {ε α : Type} (edit : Edit ε α) : Prop :=
  ∀ root contents, Preserves (Expression.Holds root contents) edit

section Keeps

variable {ε α : Type} {edit : Edit ε α}

theorem Keeps.final_holds (h : Keeps edit) (draft : Draft) :
    (final (edit draft)).Holds draft.root draft.contents :=
  h _ _ draft ⟨rfl, rfl⟩

theorem Keeps.size_final_eq (h : Keeps edit) (draft : Draft) :
    (final (edit draft)).size = draft.size := by
  rw [Expression.size_eq_size_contents, (h.final_holds draft).2, Expression.size_eq_size_contents]

/-- Keeping all contents is adding nothing to them. -/
theorem Keeps.exists_holds (h : Keeps edit) (draft : Draft) :
    ∃ added, (final (edit draft)).Holds draft.root (draft.contents ++ added) :=
  ⟨#[], by simpa using h.final_holds draft⟩

theorem Keeps.size_eq (h : Keeps edit) {draft draft' : Draft} {a : α}
    (hrun : edit draft = .ok a draft') : draft'.size = draft.size := by
  have := h.size_final_eq draft
  rwa [hrun] at this

end Keeps

theorem keeps_update (id : NodeId) {change : Node → Node}
    (hcontent : ∀ node, (change node).content = node.content) : Keeps (update id change) := by
  rintro _ _ draft ⟨rfl, rfl⟩
  by_cases h : id.index < draft.size
  · rw [update_of_lt change h]
    refine ⟨rfl, Array.ext (by simp [Expression.contents]) ?_⟩
    intro i hi hi'
    simp only [Expression.contents, Array.getElem_map, final_ok, Array.getElem_modify]
    split <;> simp [hcontent]
  · rw [update_of_le change (Nat.le_of_not_lt h)]
    exact ⟨rfl, rfl⟩

/-! ## The operations -/

theorem keeps_addChild (parent child : NodeId) : Keeps (addChild parent child) := by
  intro root contents
  have hlink : Preserves (Expression.Holds root contents) (do
      update parent fun node => { node with children := node.children.push child }
      update child fun node => { node with parent := some parent } : Edit Fault Unit) := by
    refine .bind (keeps_update parent ?_ _ _) fun _ => keeps_update child ?_ _ _ <;>
      exact fun _ => rfl
  unfold addChild
  refine .bind (.read _) fun content => ?_
  split
  · refine .bind (.read _) fun way => ?_
    split
    · exact .throw_bind _ _
    · refine .bind (.read _) fun former => ?_
      split
      · refine .bind (keeps_update _ ?_ _ _) fun _ => hlink
        exact fun _ => rfl
      · exact hlink
  · exact .throw_bind _ _

theorem keeps_swapChildren (parent first second : NodeId) :
    Keeps (swapChildren parent first second) := by
  intro root contents
  unfold swapChildren
  refine .bind (.lift (.read _)) fun children => ?_
  split
  · refine .lift (keeps_update parent ?_ _ _)
    exact fun _ => rfl
  · exact .throw _

theorem keeps_commit (id : NodeId) : Keeps (commit id) := by
  intro root contents
  unfold commit
  refine .bind (.read _) fun node => .bind (keeps_update id ?_ _ _) fun _ =>
    .bind (.forM (fun added => .bind (keeps_update added ?_ _ _) fun _ =>
      keeps_update id ?_ _ _) _) fun _ =>
    .forM (fun removed => .bind (keeps_update id ?_ _ _) fun _ => keeps_update removed ?_ _ _) _ <;>
    exact fun _ => rfl

theorem keeps_stage (id : NodeId) : Keeps (stage id) := by
  intro root contents
  unfold stage
  refine .bind (.read _) fun node => ?_
  split
  · refine .bind (.read _) fun content => ?_
    split
    · refine .bind (.emit _) fun _ => keeps_update _ ?_ _ _
      exact fun _ => rfl
    · exact .pure ()
  · exact .pure ()

theorem keeps_flattenWithin (levels : Nat) (id : NodeId) : Keeps (flattenWithin levels id) := by
  induction levels generalizing id with
  | zero => exact fun _ _ => .throw _
  | succ levels ih =>
    intro root contents
    unfold flattenWithin
    exact .bind (.read _) fun children =>
      .bind (.forM (fun child => .bind (ih child _ _) fun _ => keeps_stage child _ _) _) fun _ =>
        keeps_commit id _ _

theorem keeps_flattenBeneath (id : NodeId) : Keeps (flattenBeneath id) :=
  fun _ _ => .bind .get fun _ => keeps_flattenWithin _ id _ _

theorem keeps_flatten : Keeps flatten :=
  fun _ _ => .bind .get fun _ => keeps_flattenBeneath _ _ _

theorem keeps_shift (path : TreePath) (offset : Int64) : Keeps (shift path offset) :=
  fun _ _ => .shift (fun _ _ _ => keeps_swapChildren _ _ _ _ _) path offset

/-- Only `insert` adds a node. -/
theorem contents_insert (content : Content) (draft : Draft) :
    (final ((insert content : Edit Fault NodeId) draft)).contents =
      draft.contents.push content := by
  simp [insert_eq, Expression.contents, Node.detached]

/-! ## Planted trees -/

mutual

theorem size_plant {root : NodeId} :
    (tree : Tree) → ∀ {draft draft' : Draft}, plant tree draft = .ok root draft' →
      draft'.size = draft.size + tree.size
  | .literal l, draft, draft', h => by
    rw [plant, insert_eq] at h
    cases h
    exact Array.size_push _
  | .compound kind children, draft, draft', h => by
    rw [plant] at h
    obtain ⟨id, middle, hinsert, h⟩ := bind_eq_ok_iff.mp h
    obtain ⟨_, last, hplant, h⟩ := bind_eq_ok_iff.mp h
    obtain ⟨-, rfl⟩ := pure_eq_ok_iff.mp h
    rw [insert_eq] at hinsert
    cases hinsert
    have hsize : Expression.size (Draft.toExpression
        { draft with nodes := draft.nodes.push (Node.detached (.compound kind)) }) =
          draft.size + 1 := Array.size_push _
    rw [size_plantAll children hplant, hsize, Tree.size]
    omega

theorem size_plantAll {parent : NodeId} :
    (trees : List Tree) → ∀ {draft draft' : Draft}, plantAll parent trees draft = .ok () draft' →
      draft'.size = draft.size + Tree.sizeAll trees
  | [], draft, draft', h => by
    cases h
    rfl
  | tree :: rest, draft, draft', h => by
    rw [plantAll] at h
    obtain ⟨child, middle, hplant, h⟩ := bind_eq_ok_iff.mp h
    obtain ⟨_, last, hattach, h⟩ := bind_eq_ok_iff.mp h
    have hsize := (keeps_addChild parent child).size_eq hattach
    rw [size_plantAll rest h, hsize, size_plant tree hplant, Tree.sizeAll]
    omega

end

end Edit

theorem Expression.size_of_ofTree {tree : Tree} {e : Expression} (h : ofTree tree = .ok e) :
    e.size = tree.size := by
  unfold ofTree at h
  split at h
  · rename_i root draft hplant
    cases h
    exact (Edit.size_plant tree hplant).trans (Nat.zero_add _)
  · cases h

end ExprTree
