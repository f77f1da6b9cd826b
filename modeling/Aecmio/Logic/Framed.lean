import Mathlib.Tactic.Common

/-!
# Frames of methods

A method in `StateT σ (Except ε)` is framed by a relation when every run
that returns takes a state to a related one.  For a reflexive and transitive
relation, the methods so framed are closed under sequence, choice, loops and
exception handlers.
-/

namespace Framed

variable {ε σ α β : Type}

theorem run_bind_eq_ok {method : StateT σ (Except ε) α}
    {next : α → StateT σ (Except ε) β} {state : σ} {result : β × σ} :
    (method >>= next).run state = .ok result ↔ ∃ value middle,
      method.run state = .ok (value, middle) ∧
        (next value).run middle = .ok result := by
  rw [StateT.run_bind]
  cases ran : method.run state with
  | error error => simp [bind, Except.bind]
  | ok pair => simp [bind, Except.bind, Prod.ext_iff]

/-- Every run that returns stays within the relation. -/
def Frames (relation : σ → σ → Prop) (method : StateT σ (Except ε) α) : Prop :=
  ∀ state value state', method.run state = .ok (value, state') →
    relation state state'

variable {relation : σ → σ → Prop}

section

variable [Std.Refl relation]

theorem frames_pure (value : α) :
    Frames relation (pure value : StateT σ (Except ε) α) := by
  intro state value state' ran
  cases ran
  exact Std.Refl.refl _

theorem frames_get : Frames relation (get : StateT σ (Except ε) σ) := by
  intro state value state' ran
  cases ran
  exact Std.Refl.refl _

theorem frames_lift (result : Except ε α) :
    Frames relation (StateT.lift result : StateT σ (Except ε) α) := by
  intro state value state' ran
  cases result with
  | error error => cases ran
  | ok value =>
      cases ran
      exact Std.Refl.refl _

end

theorem frames_throw (error : ε) :
    Frames relation (throw error : StateT σ (Except ε) α) := by
  intro state value state' ran
  cases ran

theorem frames_bind [IsTrans σ relation] {method : StateT σ (Except ε) α}
    {next : α → StateT σ (Except ε) β} (first : Frames relation method)
    (rest : ∀ value, Frames relation (next value)) :
    Frames relation (method >>= next) := by
  intro state value state' ran
  obtain ⟨middleValue, middle, ranFirst, ranRest⟩ := run_bind_eq_ok.mp ran
  exact IsTrans.trans _ _ _ (first _ _ _ ranFirst) (rest _ _ _ _ ranRest)

theorem frames_ite {condition : Prop} [Decidable condition]
    {yes no : StateT σ (Except ε) α} (first : Frames relation yes)
    (second : Frames relation no) :
    Frames relation (if condition then yes else no) := by
  split
  · exact first
  · exact second

/-- A handler does nothing when nothing is thrown. -/
theorem run_tryCatch_ok {method : StateT σ (Except ε) α}
    {handler : ε → StateT σ (Except ε) α} {state : σ} {result : α × σ}
    (ran : method.run state = .ok result) :
    (tryCatch method handler).run state = .ok result := by
  change tryCatch (method.run state)
    (fun error => (handler error).run state) = _
  rw [ran]
  rfl

theorem frames_tryCatch {method : StateT σ (Except ε) α}
    {handler : ε → StateT σ (Except ε) α} (first : Frames relation method)
    (handled : ∀ error, Frames relation (handler error)) :
    Frames relation (tryCatch method handler) := by
  intro state value state' ran
  have unfolded : (tryCatch method handler).run state =
      tryCatch (method.run state) fun error => (handler error).run state := rfl
  rw [unfolded] at ran
  cases ranFirst : method.run state with
  | ok pair =>
      rw [ranFirst] at ran
      cases ran
      exact first _ _ _ ranFirst
  | error error =>
      rw [ranFirst] at ran
      exact handled error _ _ _ ran

theorem frames_foldlM [Std.Refl relation] [IsTrans σ relation]
    {step : β → α → StateT σ (Except ε) β}
    (each : ∀ before item, Frames relation (step before item))
    (items : List α) (start : β) :
    Frames relation (items.foldlM step start) := by
  induction items generalizing start with
  | nil => exact frames_pure start
  | cons item items induction =>
      rw [List.foldlM_cons]
      exact frames_bind (each start item) induction

end Framed
