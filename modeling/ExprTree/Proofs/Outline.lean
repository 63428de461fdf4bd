import ExprTree.Proofs.Expression.Walk
import ExprTree.Proofs.Reachable
import ExprTree.Proofs.Tree.Outline

/-!
# What an outline tells

The outline of a subtree has a line for every node beneath, in the order of a walk, with a tab
for every step from the topmost node and those it starts with. It tells the subtree and the
number of tabs from all others, whatever expression they belong to.

The outline can also be written node by node, where a node cannot tell whether a child has ended
its line and has to look at the end of what was written.
-/

namespace ExprTree

namespace Expression

/-- The text so far, with a line break at the end of its last line. -/
def endLine (out : String) : String :=
  if out.toList.getLast? = some '\n' then out else out.push '\n'

/-- Writes the node and everything beneath it, if there are at most the given number of levels.
A literal leaves its line open, and the node above it ends the line. -/
def writeOutline (e : Expression) : Nat → Nat → String → NodeId → Except Fault String
  | 0, _, _, _ => .error .tooDeep
  | levels + 1, indent, out, id => do
    let node ← e.node id
    match node.content with
    | .literal l => return out.pushn '\t' indent ++ l.text
    | .compound kind =>
      node.children.toList.foldlM
        (fun out child => endLine <$> e.writeOutline levels (indent + 1) out child)
        (out.pushn '\t' indent ++ kind.token ++ "\n")

def outlineByNodes (e : Expression) (id : NodeId) (indent : Nat) : Except Fault String :=
  e.writeOutline e.depthBound indent "" id

/-- The line of a node in the outline from `top` on: a tab for each step between them, after the
tabs that the outline starts with, then its text and a line break. -/
def lineBeneath (e : Expression) (top : NodeId) (indent : Nat) (id : NodeId) :
    Except Fault String := do
  let way ← e.ancestors id
  let above ← e.ancestors top
  let content ← e.content id
  return line (indent + (way.length - above.length), content)

variable {e : Expression} {parent : Option NodeId} {t : Subtree}

/-! ## Writing node by node -/

theorem endLine_outline (out : String) (tree : Tree) (indent : Nat) :
    endLine (out ++ tree.outline indent) = out ++ tree.lines indent := by
  have hne : (tree.outline indent).toList ≠ [] := by
    cases tree with
    | literal l => simp [Tree.outline, l.text_ne_nil]
    | compound kind children => simp [Tree.outline]
  rw [endLine, String.toList_append, List.getLast?_append_of_ne_nil _ hne, Tree.lines_eq_outline]
  simp only [Tree.getLast?_outline]
  split
  · rfl
  · rw [← String.append_assoc]
    rfl

namespace Stored

/-- Writing one subtree after the other appends what is written of each of them. -/
theorem foldlM_map_id {write : String → NodeId → Except Fault String} {written : Subtree → String}
    {children : List Subtree}
    (hwrite : ∀ child ∈ children, ∀ out, write out child.id = .ok (out ++ written child))
    (out : String) :
    (children.map Subtree.id).foldlM write out =
      .ok (out ++ String.join (children.map written)) := by
  induction children generalizing out with
  | nil =>
    rw [List.map_nil, List.map_nil, String.join_nil, String.append_empty]
    rfl
  | cons child rest ih =>
    obtain ⟨hfirst, hrest⟩ := List.forall_mem_cons.mp hwrite
    rw [List.map_cons, List.foldlM_cons, hfirst, List.map_cons, String.join_cons,
      ← String.append_assoc]
    exact ih hrest _

theorem writeOutline_eq (h : e.Stored parent t) {levels : Nat} (hlevels : t.height ≤ levels)
    (indent : Nat) (out : String) :
    e.writeOutline levels indent out t.id = .ok (out ++ t.tree.outline indent) := by
  induction h generalizing levels indent out with
  | @node parent id content children hnode hleaf hchildren ih =>
    obtain ⟨levels, rfl⟩ : ∃ n, levels = n + 1 :=
      Nat.exists_eq_add_of_le' (Nat.le_trans (Subtree.height_pos _) hlevels)
    rw [Subtree.height_node_le_iff] at hlevels
    rw [Subtree.id_node, writeOutline, node_ok_iff.mpr hnode]
    cases content with
    | literal l =>
      rw [Subtree.tree_literal, Tree.outline, ← String.append_assoc, ← Tree.pushn_eq]
      rfl
    | compound kind =>
      have hwrite : ∀ child ∈ children, ∀ out,
          endLine <$> e.writeOutline levels (indent + 1) out child.id =
            .ok (out ++ child.tree.lines (indent + 1)) := by
        intro child hchild out
        rw [ih child hchild (hlevels child hchild), ← endLine_outline]
        rfl
      change (children.map Subtree.id).foldlM _ _ = _
      rw [foldlM_map_id hwrite, Subtree.tree_compound, Tree.outline, Tree.lines_compound,
        Tree.pushn_eq, List.map_map]
      simp only [String.append_assoc]
      rfl

theorem outlineByNodes_eq (h : e.Stored parent t) (hnodup : t.ids.Nodup) (indent : Nat) :
    e.outlineByNodes t.id indent = .ok (t.tree.outline indent) := by
  rw [outlineByNodes, h.writeOutline_eq (h.height_le hnodup), String.empty_append]

end Stored

/-! ## Line by line -/

theorem mapM_eq_ok_of_map {α β : Type} {look : α → Except Fault β} {places : List α}
    {answers : List β} (h : places.map look = answers.map .ok) :
    places.mapM look = .ok answers := by
  induction places generalizing answers with
  | nil =>
    obtain rfl := List.map_eq_nil_iff.mp h.symm
    rfl
  | cons place rest ih =>
    obtain ⟨answer, later, rfl, hanswer, hlater⟩ := List.map_eq_cons_iff.mp h.symm
    rw [List.mapM_cons, ← hanswer, ih hlater.symm]
    rfl

/-- The lines of the nodes along a walk are those of the tree. -/
theorem Forest.mapM_lineBeneath (hf : e.Forest) (h : e.Stored parent t) (indent : Nat) :
    t.ids.mapM (e.lineBeneath t.id indent) = .ok ((t.tree.rows indent).map line) := by
  obtain ⟨above, habove⟩ := hf.grounded t.id
  have htop := hf.ancestors_eq habove ⟨_, h.node?_eq⟩
  apply mapM_eq_ok_of_map
  rw [Tree.rows, List.map_map, List.map_map]
  refine h.map_ids (fun depth id => ∃ way steps, e.Ascends id way ∧
    way.length = above.length + steps ∧ depth = indent + steps) ?_ ?_ ⟨above, 0, habove, rfl, rfl⟩
  · rintro depth id child ⟨way, steps, hway, hlength, rfl⟩ hchild
    exact ⟨child :: way, steps + 1, .step hchild hway, congrArg (· + 1) hlength, rfl⟩
  · rintro depth _ part hpart ⟨way, steps, hway, hlength, rfl⟩
    rw [lineBeneath, hf.ancestors_eq hway ⟨_, hpart.node?_eq⟩, htop, content_ok hpart.node?_eq]
    change Except.ok (line (indent + (way.length - above.length), part.content)) = _
    rw [hlength, Nat.add_sub_cancel_left, Function.comp_apply, Function.comp_apply,
      part.content_tree]

/-- The text has the lines of the nodes beneath `id` one after the other, in the order of a walk.
Its last line lacks the line break if there is nothing but a literal. -/
def WrittenInLines (e : Expression) (id : NodeId) (indent : Nat) (text : String) : Prop :=
  ∃ order lines content, e.walk id = .ok order ∧ order.mapM (e.lineBeneath id indent) = .ok lines ∧
    e.content id = .ok content ∧
    String.join lines = if content.isCompound then text else text ++ "\n"

end Expression

namespace Reachable

/-- An outline is written line by line, with a line for each node, and the whole of it tells how
many tabs it starts with and which tree it is about. -/
theorem outline_determines_tree {e f : Expression} (he : Reachable e) (hf : Reachable f)
    (hroom : e.size ≤ 2 ^ 32) (hroom' : f.size ≤ 2 ^ 32) {id other : NodeId}
    (hid : id.index < e.size) (hother : other.index < f.size) (indent indent' : Nat) :
    (∃ text, e.outline id indent = .ok text ∧ e.outlineByNodes id indent = .ok text ∧
      e.WrittenInLines id indent text) ∧
    (e.outline id indent = f.outline other indent' ↔
      indent = indent' ∧ ∃ tree, e.tree id = .ok tree ∧ f.tree other = .ok tree) := by
  have hforest := he.forest hroom
  obtain ⟨t, rfl, ht, hnodup, htree⟩ := hforest.exists_tree (Expression.node?_isSome_iff.mpr hid)
  obtain ⟨t', rfl, -, -, htree'⟩ :=
    (hf.forest hroom').exists_tree (Expression.node?_isSome_iff.mpr hother)
  have houtline := Expression.outline_ok htree indent
  refine ⟨⟨_, houtline, ht.outlineByNodes_eq hnodup indent, _, _, _, ht.walk_eq hnodup,
    hforest.mapM_lineBeneath ht indent, Expression.content_ok ht.node?_eq, ?_⟩, ?_⟩
  · rw [← Tree.lines_eq, Tree.lines_eq_outline, Subtree.content_tree]
  · rw [houtline, Expression.outline_ok htree' indent', Except.ok.injEq, Tree.outline_inj, htree,
      htree']
    constructor
    · rintro ⟨rfl, hsame⟩
      exact ⟨rfl, _, rfl, by rw [hsame]⟩
    · rintro ⟨rfl, tree, hread, hread'⟩
      exact ⟨rfl, (Except.ok.inj hread).trans (Except.ok.inj hread').symm⟩

/-- A sum that was flattened, and one that was built without any nesting. -/
theorem outline_determines_tree_of_sum :
    ∃ e f, Reachable e ∧ Reachable f ∧ e.size = 4 ∧ f.size = 3 ∧
      e.outlineByNodes ⟨0⟩ 1 = .ok "\t+\n\t\ty\n\t\tx\n" ∧
      ∃ tree, e.tree ⟨0⟩ = .ok tree ∧ f.tree ⟨0⟩ = .ok tree := by
  obtain ⟨e, he, hsize, htext⟩ : ∃ e, Reachable e ∧ e.size = 4 ∧
      e.outline ⟨0⟩ 1 = .ok "\t+\n\t\ty\n\t\tx\n" :=
    ⟨_, sumInSum.edit .flatten #[], rfl, by decide⟩
  have hsum := Reachable.ofContent (.compound (.operation .add))
  have hy := (hsum.edit (.insert (.literal ⟨"y", by decide⟩)) #[]).edit (.addChild ⟨0⟩ ⟨1⟩) #[]
  have hx := (hy.edit (.insert (.literal ⟨"x", by decide⟩)) #[]).edit (.addChild ⟨0⟩ ⟨2⟩) #[]
  obtain ⟨f, hf, hsize', htext'⟩ : ∃ f, Reachable f ∧ f.size = 3 ∧
      f.outline ⟨0⟩ 1 = .ok "\t+\n\t\ty\n\t\tx\n" := ⟨_, hx, rfl, by decide⟩
  have hid : NodeId.index ⟨0⟩ < e.size := by rw [hsize]; decide
  have hid' : NodeId.index ⟨0⟩ < f.size := by rw [hsize']; decide
  obtain ⟨⟨text, houtline, hbyNodes, -⟩, hsame⟩ := outline_determines_tree he hf
    (by rw [hsize]; decide) (by rw [hsize']; decide) hid hid' 1 1
  obtain rfl := Except.ok.inj (houtline.symm.trans htext)
  exact ⟨e, f, he, hf, hsize, hsize', hbyNodes, (hsame.mp (htext.trans htext'.symm)).2⟩

end Reachable
end ExprTree
