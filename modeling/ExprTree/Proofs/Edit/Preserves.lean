import ExprTree.Edit.Shift
import ExprTree.Proofs.Run

/-!
# What edits preserve

An edit preserves a property of expressions when a run on an expression that has it
ends with one that has it, also when the run fails. Looking around never changes
the expression, so it is the writing steps of an edit that need an argument.
-/

namespace ExprTree.Edit

open Run

def Preserves {ε α : Type} (P : Expression → Prop) (edit : Edit ε α) : Prop :=
  ∀ draft, P draft.toExpression → P (final (edit draft)).toExpression

/-- Changing the path leaves the draft as the exchange left it. -/
theorem final_shift (path : TreePath) (offset : Int64) (draft : Draft) :
    final (shift path offset draft) = final (exchangeAt path offset draft) := by
  rw [shift, shiftFocused_eq]
  cases exchangeAt path offset draft with
  | error error draft => rfl
  | ok _ draft => cases path.offset offset <;> rfl

namespace Preserves

variable {ε α β : Type} {P : Expression → Prop} {edit : Edit ε α}

theorem of_final_eq (h : ∀ draft, (final (edit draft)).toExpression = draft.toExpression) :
    Preserves P edit := by
  intro draft hP
  rwa [h draft]

theorem pure (a : α) : Preserves P (pure a : Edit ε α) :=
  of_final_eq fun _ => rfl

theorem throw (error : ε) : Preserves P (throw error : Edit ε α) :=
  of_final_eq fun _ => rfl

theorem get : Preserves P (get : Edit ε Draft) :=
  of_final_eq fun _ => rfl

theorem emit (record : Record) : Preserves P (emit record : Edit ε Unit) :=
  of_final_eq fun _ => rfl

theorem bind {next : α → Edit ε β} (h : Preserves P edit) (hnext : ∀ a, Preserves P (next a)) :
    Preserves P (edit >>= next) := by
  intro draft hP
  have hfirst := h draft hP
  cases hrun : edit draft with
  | ok a middle =>
    rw [hrun] at hfirst
    rw [bind_of_ok hrun]
    exact hnext a middle hfirst
  | error error middle =>
    rw [hrun] at hfirst
    rw [bind_of_error hrun]
    exact hfirst

/-- What would follow a failure does not matter. -/
theorem throw_bind (error : ε) (next : α → Edit ε β) :
    Preserves P (MonadExcept.throw error >>= next) :=
  of_final_eq fun _ => rfl

theorem forM {γ : Type} {step : γ → Edit ε Unit} (h : ∀ a, Preserves P (step a))
    (list : List γ) : Preserves P (list.forM step) := by
  induction list with
  | nil => exact pure ()
  | cons first rest ih =>
    rw [List.forM_eq_forM, List.forM_cons]
    exact (h first).bind fun _ => ih

theorem ofExcept (x : Except ε α) : Preserves P (ofExcept x : Edit ε α) := by
  cases x with
  | ok a => exact pure a
  | error error => exact throw error

theorem read (look : Expression → Except Fault α) : Preserves P (read look) :=
  get.bind fun _ => ofExcept _

theorem found (answer : Option α) : Preserves P (found answer) := by
  cases answer with
  | none => exact throw _
  | some a => exact pure a

theorem lift {edit : Edit Fault α} (h : Preserves P edit) :
    Preserves P (liftM edit : Edit EditError α) := by
  intro draft hP
  have hrun := h draft hP
  change P (final (EStateM.adaptExcept EditError.fault edit draft)).toExpression
  rw [EStateM.adaptExcept]
  cases hedit : edit draft <;> simpa [hedit] using hrun

theorem exchangeAt (hswap : ∀ parent first second, Preserves P (swapChildren parent first second))
    (path : TreePath) (offset : Int64) : Preserves P (exchangeAt path offset) := by
  unfold Edit.exchangeAt
  exact .bind (.lift (.read _)) fun answer => .bind (.found answer) fun node =>
    .bind (.lift (.read _)) fun above => .bind (.found above) fun parent =>
    .bind (.found _) fun position => .bind (.found _) fun target =>
    .bind (.lift (.read _)) fun children => .bind (.found _) fun sibling =>
    .bind (.emit _) fun _ => hswap parent node sibling

/-- A shift writes to the expression only where it exchanges two children. -/
theorem shift (hswap : ∀ parent first second, Preserves P (swapChildren parent first second))
    (path : TreePath) (offset : Int64) : Preserves P (shift path offset) := by
  intro draft hP
  rw [final_shift]
  exact exchangeAt hswap path offset draft hP

end Preserves
end ExprTree.Edit
