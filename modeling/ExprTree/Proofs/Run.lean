import ExprTree.Parse

/-!
# Runs of computations

Edits and the reading of texts are computations with a state that may fail. These
lemmas take a run apart at its first step, so that a proof about a computation
follows its steps without opening the monad.
-/

namespace ExprTree.Run

variable {ε σ α β : Type} {s t : σ}

theorem bind_of_ok {x : EStateM ε σ α} {f : α → EStateM ε σ β} {a : α} (h : x s = .ok a t) :
    (x >>= f) s = f a t := by
  simp only [bind, EStateM.bind, h]

theorem bind_of_error {x : EStateM ε σ α} {f : α → EStateM ε σ β} {error : ε}
    (h : x s = .error error t) : (x >>= f) s = .error error t := by
  simp only [bind, EStateM.bind, h]

theorem bind_eq_ok_iff {x : EStateM ε σ α} {f : α → EStateM ε σ β} {b : β} :
    (x >>= f) s = .ok b t ↔ ∃ a middle, x s = .ok a middle ∧ f a middle = .ok b t := by
  cases h : x s with
  | ok a middle =>
    rw [bind_of_ok h]
    refine ⟨fun hf => ⟨a, middle, rfl, hf⟩, ?_⟩
    rintro ⟨_, _, ⟨⟩, hf⟩
    exact hf
  | error error middle => simp [bind_of_error h]

theorem bind_eq_error_iff {x : EStateM ε σ α} {f : α → EStateM ε σ β} {error : ε} :
    (x >>= f) s = .error error t ↔
      x s = .error error t ∨ ∃ a middle, x s = .ok a middle ∧ f a middle = .error error t := by
  cases h : x s with
  | ok a middle =>
    rw [bind_of_ok h]
    refine ⟨fun hf => .inr ⟨a, middle, rfl, hf⟩, ?_⟩
    rintro (h | ⟨_, _, ⟨⟩, hf⟩)
    · cases h
    · exact hf
  | error error middle => simp [bind_of_error h]

theorem pure_eq_ok_iff {a b : α} : (pure a : EStateM ε σ α) s = .ok b t ↔ a = b ∧ s = t := by
  simp [pure, EStateM.pure]

theorem ofExcept_eq_ok_iff {x : Except ε α} {a : α} :
    (ofExcept x : EStateM ε σ α) s = .ok a t ↔ x = .ok a ∧ s = t := by
  cases x with
  | ok b =>
    change EStateM.Result.ok b s = .ok a t ↔ _
    simp
  | error error =>
    change EStateM.Result.error error s = .ok a t ↔ _
    simp

theorem adaptExcept_eq_ok_iff {ε' : Type} {f : ε → ε'} {x : EStateM ε σ α} {a : α} :
    EStateM.adaptExcept f x s = .ok a t ↔ x s = .ok a t := by
  unfold EStateM.adaptExcept
  split <;> simp_all

/-- The state at the end of a run, be it a success or a failure. -/
def final : EStateM.Result ε σ α → σ
  | .ok _ t => t
  | .error _ t => t

@[simp] theorem final_ok (a : α) (t : σ) : final (.ok a t : EStateM.Result ε σ α) = t := rfl

@[simp] theorem final_error (error : ε) (t : σ) :
    final (.error error t : EStateM.Result ε σ α) = t := rfl

/-- A run over a list succeeds exactly when its parts succeed one after the other. -/
theorem mapM_cons_eq_ok_iff {γ : Type} {f : γ → EStateM ε σ α} {first : γ} {rest : List γ}
    {results : List α} :
    (first :: rest).mapM f s = .ok results t ↔ ∃ a as middle, f first s = .ok a middle ∧
      rest.mapM f middle = .ok as t ∧ results = a :: as := by
  rw [List.mapM_cons]
  simp only [bind_eq_ok_iff, pure_eq_ok_iff]
  constructor
  · rintro ⟨a, middle, hfirst, as, last, hrest, rfl, rfl⟩
    exact ⟨a, as, middle, hfirst, hrest, rfl⟩
  · rintro ⟨a, as, middle, hfirst, hrest, rfl⟩
    exact ⟨a, middle, hfirst, as, t, hrest, rfl, rfl⟩

theorem mapM_nil_eq_ok_iff {γ : Type} {f : γ → EStateM ε σ α} {results : List α} :
    ([] : List γ).mapM f s = .ok results t ↔ results = [] ∧ s = t := by
  rw [List.mapM_nil, pure_eq_ok_iff, eq_comm]

/-- A run over a list fails exactly when one of its parts fails and those before it succeed. -/
theorem mapM_eq_error_iff {γ : Type} {f : γ → EStateM ε σ α} {inputs : List γ} {error : ε} :
    inputs.mapM f s = .error error t ↔ ∃ front input back results middle,
      inputs = front ++ input :: back ∧ front.mapM f s = .ok results middle ∧
      f input middle = .error error t := by
  induction inputs generalizing s with
  | nil =>
    refine iff_of_false ?_ (by simp)
    rw [List.mapM_nil]
    exact nofun
  | cons first rest ih =>
    rw [List.mapM_cons, bind_eq_error_iff]
    simp only [bind_eq_error_iff, ih]
    constructor
    · rintro (hfirst | ⟨a, middle, hfirst,
        ⟨front, input, back, results, last, rfl, hfront, hinput⟩ | ⟨_, _, _, hpure⟩⟩)
      · exact ⟨[], first, rest, [], s, rfl, mapM_nil_eq_ok_iff.mpr ⟨rfl, rfl⟩, hfirst⟩
      · exact ⟨first :: front, input, back, a :: results, last, rfl,
          mapM_cons_eq_ok_iff.mpr ⟨a, results, middle, hfirst, hfront, rfl⟩, hinput⟩
      · cases hpure
    · rintro ⟨front, input, back, results, middle, hsplit, hfront, hinput⟩
      cases front with
      | nil =>
        obtain ⟨rfl, rfl⟩ := List.cons.inj hsplit
        obtain ⟨-, rfl⟩ := mapM_nil_eq_ok_iff.mp hfront
        exact .inl hinput
      | cons head front =>
        obtain ⟨rfl, rfl⟩ := List.cons.inj hsplit
        obtain ⟨a, as, next, hfirst, hrest, -⟩ := mapM_cons_eq_ok_iff.mp hfront
        exact .inr ⟨a, next, hfirst, .inl ⟨front, input, back, as, middle, rfl, hrest, hinput⟩⟩

theorem mapM_congr {γ : Type} {f g : γ → EStateM ε σ α} {inputs : List γ}
    (h : ∀ input ∈ inputs, f input = g input) : inputs.mapM f = inputs.mapM g := by
  induction inputs with
  | nil => rfl
  | cons first rest ih =>
    obtain ⟨hfirst, hrest⟩ := List.forall_mem_cons.mp h
    rw [List.mapM_cons, List.mapM_cons, hfirst, ih hrest]

end ExprTree.Run
