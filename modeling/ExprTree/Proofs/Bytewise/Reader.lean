import ExprTree.Proofs.Bytewise.Text
import ExprTree.Proofs.Parsing
import ExprTree.Proofs.Tree.Calls

/-!
# Reading in bytes and words

`Bytewise.parse` reads a text in the steps of a machine: bytes instead of characters, words
instead of numbers, cuts at byte positions, and an expression that grows while the text is
read, each node added before its children and attached to its parent when all beneath it is
done. Every step that may go wrong is a check, and so is every call, which has to be on a
shorter text. The expression under construction always consists of detached trees, so that
attaching never fails. What comes out is what `Expression.parse` says.
-/

namespace ExprTree.Bytewise

open Run Edit

instance : MonadLift (Edit Fault) (Edit Stop) where
  monadLift := EStateM.adaptExcept Stop.fault

/-! ## The reader -/

/-- Reads the operands that end at the given positions, one by one, as children of `op`. -/
def readOperands (call : String → Edit Stop NodeId) (s : String) (op : NodeId) :
    Nat → List Nat → Edit Stop Unit
  | _, [] => pure ()
  | start, stop :: rest => do
    let operand ← call (← slice s start stop)
    addChild op operand
    readOperands call s op (← increment stop) rest

/-- What a call does, in terms of the calls that it makes. -/
def readStep (call : String → Edit Stop NodeId) (s : String) : Edit Stop NodeId :=
  if !(bytes s).any isLiteralByte then
    throw (.rejected (.noLiteral s))
  else
    match Literal.ofChars? s.toList with
    | some l => insert (.literal l)
    | none => do
      if ← wrapped s then
        let parens ← insert (.compound .parentheses)
        let inner ← call (← slice s 1 (← decrement s.utf8ByteSize))
        addChild parens inner
        return parens
      else
        match ← findSplit s with
        | none => throw (.rejected (.noOperator s))
        | some split =>
          emit (.splitting s (← increment split.positions.length) split.operator)
          let op ← insert (.compound (.operation split.operator))
          readOperands call s op 0 (split.positions ++ [s.utf8ByteSize])
          return op

/-- Adds the nodes of a text and gives the handle of the topmost one. A call on a text that is
no shorter stops the reading. -/
def read (s : String) : Edit Stop NodeId :=
  readStep (fun part =>
    if _ : part.utf8ByteSize < s.utf8ByteSize then read part else throw .notShorter) s
termination_by s.utf8ByteSize

/-- Builds the expression of a text that passed the checks, node by node. -/
def construct (input : String) : Edit Stop Expression := do
  let root ← read input
  modify fun draft => { draft with root }
  flatten
  emit (.parsed input (← Edit.read (·.outline root 0)))
  return (← get).toExpression

def build (text : String) : Edit Stop Expression := do
  match firstForeign? text.toList with
  | some (character, position) => throw (.rejected (.unexpectedCharacter character position))
  | none =>
    let input := String.ofList (withoutBlanks text.toList)
    checkBalance input 0 (bytes input)
    construct input

def parse (text : String) : Traced Stop Expression := fun log =>
  match build text ⟨Expression.empty, log⟩ with
  | .ok e draft => .ok e draft.log
  | .error stop draft => .error stop draft.log

/-! ## Operands -/

/-- Reads the operands in order, as children of `op`. -/
def readAll (call : String → Edit Stop NodeId) (op : NodeId) : List (List Char) → Edit Stop Unit
  | [] => pure ()
  | operand :: rest => do
    addChild op (← call (String.ofList operand))
    readAll call op rest

theorem IsAscii.piece {s piece : List Char} (h : IsAscii s) {operator : Operator} {level : Int}
    (hpiece : piece ∈ pieces operator level s) : IsAscii piece := by
  obtain ⟨before, after, rfl, -⟩ := exists_place_of_mem_pieces hpiece
  exact h.of_subset fun c hc => by simp [hc]

/-- The ranges between the cuts are the operands of the split. -/
theorem readOperands_of_cut (call : String → Edit Stop NodeId) (op : NodeId) {s : List Char}
    (h : IsAscii s) (hlength : s.length + 1 < 2 ^ 64) {positions : List Nat} {start : Nat}
    (hstart : start ≤ s.length) {cuts out : Array (List Char)}
    (hcut : Split.cut cuts start (s.drop start) positions = .ok out) :
    ∃ operands, out.toList = cuts.toList ++ operands ∧
      readOperands call (String.ofList s) op start (positions ++ [s.length]) =
        readAll call op operands := by
  induction positions generalizing start cuts with
  | nil =>
    obtain rfl := Except.ok.inj hcut
    refine ⟨[s.drop start], by simp, ?_⟩
    rw [List.nil_append, readOperands, slice_ofList h hstart (Nat.le_refl _), List.take_length,
      increment_of_lt hlength]
    rfl
  | cons position positions ih =>
    rw [Split.cut] at hcut
    split at hcut
    · cases hcut
    · rename_i hle
      split at hcut
      · rename_i operand c later hsplit
        rw [List.splitAt_eq, Prod.mk.injEq] at hsplit
        obtain ⟨hoperand, hlater⟩ := hsplit
        rw [List.drop_drop, Nat.add_sub_cancel' (Nat.not_lt.mp hle)] at hlater
        have hlt : position < s.length := by
          by_contra hnot
          rw [List.drop_eq_nil_of_le (Nat.not_lt.mp hnot)] at hlater
          cases hlater
        obtain rfl : s.drop (position + 1) = later := by
          rw [← List.tail_drop, hlater, List.tail_cons]
        obtain ⟨operands, hout, hread⟩ := ih hlt hcut
        refine ⟨operand :: operands, by simpa using hout, ?_⟩
        have hpart : (s.take position).drop start = operand := by
          rw [← hoperand, List.drop_take]
        rw [List.cons_append, readOperands, slice_ofList h (Nat.not_lt.mp hle) hlt.le, hpart,
          increment_of_lt (by omega)]
        change (do addChild op (← call (String.ofList operand));
                   readOperands call (String.ofList s) op (position + 1) _ : Edit Stop Unit) = _
        rw [hread]
        rfl
      · cases hcut

/-! ## What comes out -/

/-- The outcome of building, next to that of reading at once: success with a result of which
`post` holds, or a rejection for the same reason and with the same records. -/
def Agrees {α β : Type} (post : α → Log → β → Draft → Prop)
    (parsed : EStateM.Result ParseFailure Log α) (built : EStateM.Result Stop Draft β) : Prop :=
  match parsed with
  | .ok a log => ∃ b draft, built = .ok b draft ∧ post a log b draft
  | .error failure log => ∃ error draft, failure = .rejected error ∧
      built = .error (.rejected error) draft ∧ draft.log = log

namespace Agrees

variable {α β γ δ : Type} {post : α → Log → β → Draft → Prop} {post' : γ → Log → δ → Draft → Prop}

theorem bind {x : Traced ParseFailure α} {y : Edit Stop β} {f : α → Traced ParseFailure γ}
    {g : β → Edit Stop δ} {log : Log} {draft : Draft} (h : Agrees post (x log) (y draft))
    (hrest : ∀ a log' b draft', post a log' b draft' → Agrees post' (f a log') (g b draft')) :
    Agrees post' ((x >>= f) log) ((y >>= g) draft) := by
  unfold Agrees at h
  split at h
  · rename_i a log' hx
    obtain ⟨b, draft', hy, hpost⟩ := h
    rw [bind_of_ok hx, bind_of_ok hy]
    exact hrest a log' b draft' hpost
  · rename_i failure log' hx
    obtain ⟨error, draft', rfl, hy, rfl⟩ := h
    rw [bind_of_error hx, bind_of_error hy]
    exact ⟨error, draft', rfl, rfl, rfl⟩

/-- What is made of the result afterwards does not matter to the other side. -/
theorem map {x : Traced ParseFailure α} {f : α → γ} {log : Log}
    {built : EStateM.Result Stop Draft β} {post' : γ → Log → β → Draft → Prop} (h : Agrees post (x log) built)
    (hpost : ∀ a log' b draft', post a log' b draft' → post' (f a) log' b draft') :
    Agrees post' ((x >>= fun a => pure (f a)) log) built := by
  unfold Agrees at h
  split at h
  · rename_i a log' hx
    obtain ⟨b, draft', rfl, hresult⟩ := h
    rw [bind_of_ok hx]
    exact ⟨b, draft', rfl, hpost a log' b draft' hresult⟩
  · rename_i failure log' hx
    rw [bind_of_error hx]
    exact h

theorem and_of_ok {x : Traced ParseFailure α} {log : Log} {built : EStateM.Result Stop Draft β}
    (h : Agrees post (x log) built) {holds : α → Prop}
    (hholds : ∀ a log', x log = .ok a log' → holds a) :
    Agrees (fun a log' b draft => holds a ∧ post a log' b draft) (x log) built := by
  unfold Agrees at h ⊢
  split at h
  · rename_i a log' hx
    obtain ⟨b, draft, hb, hpost⟩ := h
    exact ⟨b, draft, hb, hholds a log' hx, hpost⟩
  · exact h

theorem ok {a : α} {log : Log} {b : β} {draft : Draft} (h : post a log b draft) :
    Agrees post (.ok a log) (.ok b draft) :=
  ⟨b, draft, rfl, h⟩

theorem rejected (post : α → Log → β → Draft → Prop) (error : ParseError) (draft : Draft) :
    Agrees post (.error (.rejected error) draft.log) (.error (.rejected error) draft) :=
  ⟨error, draft, rfl, rfl, rfl⟩

end Agrees

theorem lift_eq_ok_iff {α : Type} {x : Edit Fault α} {a : α} {draft draft' : Draft} :
    (liftM x : Edit Stop α) draft = .ok a draft' ↔ x draft = .ok a draft' :=
  adaptExcept_eq_ok_iff

/-- The call plants the tree of the fragment, wherever there is room for one node for each of
its characters. -/
def Plants (call : String → Edit Stop NodeId) (s : List Char) : Prop :=
  ∀ draft : Draft, draft.size + s.length ≤ 2 ^ 32 →
    Agrees (fun tree log id draft' => id = NodeId.ofIndex draft.size ∧
        Planted { draft with log } draft' tree)
      (Tree.parse s draft.log) (call (String.ofList s) draft)

/-- Attaching a tree that was just planted to a node which has no parent. -/
theorem addChild_planted {draft middle : Draft} {op : NodeId} {node : Node} {tree : Tree}
    {log : Log} (h : Planted { draft with log } middle tree) (hroom : draft.size < 2 ^ 32)
    (hnode : draft.node? op = some node) (htop : node.parent = none)
    (hcompound : node.content.isCompound = true) :
    addChild op (NodeId.ofIndex draft.size) middle =
      .ok () (middle.attach op (NodeId.ofIndex draft.size)) := by
  have hnode' : middle.node? op = some node :=
    (h.frame op (Expression.index_lt hnode)).trans hnode
  have hchild := h.stored.node?_eq
  rw [Tree.id_number] at hchild
  exact addChild_of_detached hnode' hcompound htop hchild rfl (ofIndex_size_ne hnode hroom)

/-- Operands are planted one by one beneath a node that has no parent. -/
theorem agrees_readAll {call : String → Edit Stop NodeId} {op : NodeId}
    {operands : List (List Char)} (hcall : ∀ operand ∈ operands, Plants call operand)
    {draft : Draft} {node : Node} (hnode : draft.node? op = some node) (htop : node.parent = none)
    (hcompound : node.content.isCompound = true)
    (hroom : draft.size + (operands.map List.length).sum ≤ 2 ^ 32) :
    Agrees (fun trees log _ draft' => PlantedAll { draft with log } draft' op node trees)
      (operands.mapM Tree.parse draft.log) (readAll call op operands draft) := by
  induction operands generalizing draft node with
  | nil => exact .ok (.nil hnode)
  | cons operand rest ih =>
    obtain ⟨hfirst, hrest⟩ := List.forall_mem_cons.mp hcall
    rw [List.map_cons, List.sum_cons] at hroom
    rw [List.mapM_cons, readAll]
    have hsizes : ∀ tree log', Tree.parse operand draft.log = .ok tree log' →
        tree.size ≤ operand.length := by
      intro tree log' hparse
      obtain ⟨hcanonical, rfl, -⟩ := Tree.parse_eq_ok_iff.mp hparse
      exact hcanonical.size_le_length_text
    refine ((hfirst draft (by omega)).and_of_ok hsizes).bind ?_
    rintro tree log' id middle ⟨hsize, rfl, hplanted⟩
    have hpos := tree.size_pos
    have hattach := addChild_planted hplanted (by omega) hnode htop hcompound
    have hroom' : draft.size + tree.size ≤ 2 ^ 32 := by omega
    have hone : PlantedAll { draft with log := log' }
        (middle.attach op (NodeId.ofIndex draft.size)) op node [tree] :=
      hplanted.attach hroom' hnode
    have hsize' : (middle.attach op (NodeId.ofIndex draft.size)).size = draft.size + tree.size :=
      hplanted.size_attach
    have hnext := ih hrest hone.self htop hcompound (by omega)
    rw [hone.log] at hnext
    rw [bind_of_ok (lift_eq_ok_iff.mpr hattach)]
    refine hnext.map fun trees last _ draft' hplantedAll => ?_
    exact ((hplanted.withLog last).attach hroom' hnode).append hplantedAll
      (by rw [Tree.sizeAll, Tree.sizeAll]; exact hroom') (Expression.index_lt hnode)

/-- A compound is planted by adding it and planting its operands beneath it. -/
theorem agrees_compound {call : String → Edit Stop NodeId} {operands : List (List Char)}
    (hcall : ∀ operand ∈ operands, Plants call operand) (kind : Compound) (draft : Draft)
    (hroom : draft.size + 1 + (operands.map List.length).sum ≤ 2 ^ 32) :
    Agrees (fun tree log id draft' => id = NodeId.ofIndex draft.size ∧
        Planted { draft with log } draft' tree)
      ((operands.mapM Tree.parse >>= fun children => pure (.compound kind children)) draft.log)
      ((do
        let op ← insert (.compound kind)
        readAll call op operands
        return op : Edit Stop NodeId) draft) := by
  have hfits : draft.size < 2 ^ 32 := by omega
  have hself := Draft.node?_add_self (.compound kind) hfits
  have hall := agrees_readAll hcall hself rfl rfl (by rw [Draft.size_add]; omega)
  rw [bind_of_ok (insert_eq _ draft)]
  refine hall.bind fun trees log _ draft' hplanted => .ok ⟨rfl, ?_⟩
  have hfits' : Expression.size (Draft.mk draft.toExpression log).toExpression < 2 ^ 32 := hfits
  exact PlantedAll.planted hplanted hfits'

theorem lift_ok_bind {α β : Type} (a : α) (f : α → Edit Stop β) :
    ((liftM (Except.ok a : Except Stop α) : Edit Stop α) >>= f) = f a := rfl

section Step

variable {call : String → Edit Stop NodeId} {s : List Char}

theorem readStep_wrapped {inner : List Char} (h : IsAscii ('(' :: (inner ++ [')'])))
    (hinner : Balanced inner) (hliteral : inner.any isLiteralChar = true)
    (hlength : ('(' :: (inner ++ [')'])).length < 2 ^ 64) :
    readStep call (String.ofList ('(' :: (inner ++ [')']))) = (do
      let op ← insert (.compound .parentheses)
      readAll call op [inner]
      return op) := by
  have hnone : Literal.ofChars? ('(' :: (inner ++ [')'])) = none :=
    Literal.ofChars?_eq_none List.mem_cons_self (by decide)
  have hslice : slice (String.ofList ('(' :: (inner ++ [')']))) 1
      (('(' :: (inner ++ [')'])).length - 1) = .ok (String.ofList inner) := by
    rw [slice_ofList h (by simp) (Nat.sub_le _ _)]
    simp
  rw [readStep, if_neg (by rw [any_isLiteralByte h, any_isLiteralChar_wrap]; simp [hliteral]),
    String.toList_ofList, hnone, wrapped_eq h hlength, utf8ByteSize_ofList h,
    decrement_of_pos (by simp)]
  simp only [isWrapped_iff.mpr ⟨inner, rfl, hinner⟩, lift_ok_bind, if_true, hslice, readAll,
    bind_assoc, pure_bind]

theorem readOperands_pieces (h : IsAscii s) (hlength : s.length + 1 < 2 ^ 64) (op : NodeId)
    (operator : Operator) (level : Int) :
    readOperands call (String.ofList s) op 0 (occurrences operator level s ++ [s.length]) =
      readAll call op (pieces operator level s) := by
  have hoperands := Split.operands_occurrences operator level s
  rw [Split.operands] at hoperands
  cases hcut : Split.cut #[] 0 s (occurrences operator level s) with
  | error fault =>
    rw [hcut] at hoperands
    cases hoperands
  | ok out =>
    rw [hcut] at hoperands
    obtain ⟨operands, hout, hread⟩ :=
      readOperands_of_cut call op h hlength (Nat.zero_le _) (by rwa [List.drop_zero])
    rw [hread, ← Except.ok.inj hoperands, hout]
    simp

theorem readStep_chain (h : IsAscii s) {level : Int} {operator : Operator}
    (hliteral : s.any isLiteralChar = true) (hnone : Literal.ofChars? s = none)
    (hwrapped : ¬ isWrapped s = true) (hshallow : Shallowest s level operator)
    (hlength : s.length < 2 ^ 63) (draft : Draft) :
    readStep call (String.ofList s) draft = (do
      let op ← insert (.compound (.operation operator))
      readAll call op (pieces operator level s)
      return op : Edit Stop NodeId)
      { draft with
        log := draft.log.push
          (.splitting (String.ofList s) (pieces operator level s).length operator) } := by
  have hsplit : Split.shallowest? s = some ⟨operator, occurrences operator level s⟩ :=
    Split.shallowest?_eq_some_iff.mpr ⟨level, hshallow, rfl⟩
  have hcount : (occurrences operator level s).length ≤ s.length :=
    (List.length_filter_le _ _).trans_eq List.length_range
  have hcountword : increment (occurrences operator level s).length =
      .ok ((occurrences operator level s).length + 1) := increment_of_lt (by omega)
  rw [readStep, if_neg (by simp [any_isLiteralByte h, hliteral]), String.toList_ofList, hnone,
    wrapped_eq h (by omega), findSplit_eq h hlength, hsplit, utf8ByteSize_ofList h]
  simp only [hwrapped, lift_ok_bind, Bool.false_eq_true, if_false, hcountword,
    readOperands_pieces h (by omega), length_pieces]
  rfl

theorem readStep_stuck (h : IsAscii s) (hliteral : s.any isLiteralChar = true)
    (hnone : Literal.ofChars? s = none) (hwrapped : ¬ isWrapped s = true)
    (hstuck : ∀ operator level, ¬ Stands operator level s) (hlength : s.length < 2 ^ 63)
    (draft : Draft) :
    readStep call (String.ofList s) draft =
      .error (.rejected (.noOperator (String.ofList s))) draft := by
  rw [readStep, if_neg (by simp [any_isLiteralByte h, hliteral]), String.toList_ofList, hnone,
    wrapped_eq h (by omega), findSplit_eq h hlength, Split.shallowest?_eq_none_iff.mpr hstuck]
  simp only [hwrapped, lift_ok_bind, Bool.false_eq_true, if_false]
  rfl

end Step

/-- A call on a fragment plants its tree, provided that calls on shorter ones do. -/
theorem plants_readStep {call : String → Edit Stop NodeId} {s : List Char} (h : IsAscii s)
    (hcall : ∀ part, part.length < s.length → IsAscii part → Plants call part) :
    Plants (readStep call) s := by
  intro draft hroom
  have hlength : s.length < 2 ^ 63 := by omega
  cases form s with
  | barren hbarren =>
    rw [Tree.parse_barren hbarren, readStep,
      if_pos (by simpa [any_isLiteralByte h] using hbarren)]
    exact .rejected _ _ draft
  | literal l hl =>
    have hany := Literal.any_of_ofChars? hl
    have hpos : 0 < s.length :=
      Literal.text_of_ofChars? hl ▸ List.length_pos_of_ne_nil l.text_ne_nil
    rw [Tree.parse_literal hl, readStep, if_neg (by simp [any_isLiteralByte h, hany]),
      String.toList_ofList, hl]
    exact .ok ⟨rfl, planted_literal l (by change draft.size < 2 ^ 32; omega)⟩
  | wrapped inner hs hinner hliteral =>
    subst hs
    have hinside : Plants call inner :=
      hcall inner (by rw [List.length_cons, List.length_append]; omega)
        (h.of_subset fun c hc => by simp [hc])
    have hparse : Tree.parse ('(' :: (inner ++ [')'])) = [inner].mapM Tree.parse >>=
        fun children => pure (.compound .parentheses children) := by
      rw [Tree.parse_wrapped hinner hliteral]
      simp [List.mapM_cons]
    simp only [List.length_cons, List.length_append, List.length_nil] at hroom
    rw [hparse, readStep_wrapped h hinner hliteral (by omega)]
    exact agrees_compound (by simpa using hinside) .parentheses draft (by simp; omega)
  | chain level operator hliteral hnone hwrapped hshallow =>
    have hpieces : ∀ piece ∈ pieces operator level s, Plants call piece := fun piece hpiece =>
      hcall piece (length_lt_of_mem_pieces hshallow.stands hpiece) (h.piece hpiece)
    have hsum := sum_length_pieces_lt hshallow.stands
    rw [Tree.parse_chain hliteral hnone hwrapped hshallow,
      readStep_chain h hliteral hnone hwrapped hshallow hlength]
    exact agrees_compound hpieces (.operation operator) { draft with log := draft.log.push _ }
      (by change draft.size + 1 + _ ≤ _; omega)
  | stuck hliteral hnone hwrapped hstuck =>
    rw [Tree.parse_stuck hliteral hnone hwrapped hstuck,
      readStep_stuck h hliteral hnone hwrapped hstuck hlength]
    exact .rejected _ _ draft

/-- Every call plants the tree of its fragment. -/
theorem plants_read {s : List Char} (h : IsAscii s) : Plants read s := by
  induction hlength : s.length using Nat.strongRecOn generalizing s with
  | ind n ih =>
    intro draft hroom
    rw [read]
    refine plants_readStep h (fun part hpart hascii draft hroom => ?_) draft hroom
    have hshorter : (String.ofList part).utf8ByteSize < (String.ofList s).utf8ByteSize := by
      rwa [utf8ByteSize_ofList hascii, utf8ByteSize_ofList h]
    rw [dif_pos hshorter]
    exact ih part.length (hlength ▸ hpart) hascii rfl draft hroom

end ExprTree.Bytewise
