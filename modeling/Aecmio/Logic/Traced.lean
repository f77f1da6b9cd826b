import Mathlib.Data.Set.Basic

/-!
# Total correctness of traced programs

Programs in `EStateM` over a state with a trace that only grows.  A triple
`Ensures` promises success and a postcondition unless the run writes
something to the trace that is not allowed; what the whole run writes bounds
what each part of it writes, so the allowance of a sequence is the allowance
of its parts.
-/

namespace Traced

variable {ε σ τ α β : Type}

/-- The state a run leaves behind, whether it succeeds or not. -/
def final (program : EStateM ε σ α) (state : σ) : σ :=
  match program.run state with
  | .ok _ state' => state'
  | .error _ state' => state'

/-- A run never takes anything back from the trace. -/
class Grows (trace : σ → List τ) (program : EStateM ε σ α) : Prop where
  subset : ∀ state, trace state ⊆ trace (final program state)

section Growth

variable (trace : σ → List τ)

instance grows_pure (value : α) :
    Grows trace (pure value : EStateM ε σ α) where
  subset _ := List.Subset.refl _

instance grows_throw (error : ε) :
    Grows trace (throw error : EStateM ε σ α) where
  subset _ := List.Subset.refl _

instance grows_get : Grows trace (get : EStateM ε σ σ) where
  subset _ := List.Subset.refl _

instance grows_bind (program : EStateM ε σ α) (next : α → EStateM ε σ β)
    [first : Grows trace program] [rest : ∀ value, Grows trace (next value)] :
    Grows trace (program >>= next) where
  subset state := by
    have before := first.subset state
    unfold final at before ⊢
    rw [EStateM.run_bind]
    cases result : program.run state with
    | error error state' => simpa [result] using before
    | ok value state' =>
        rw [result] at before
        have after := (rest value).subset state'
        unfold final at after
        exact List.Subset.trans before after

instance grows_ite (condition : Prop) [Decidable condition]
    (yes no : EStateM ε σ α) [first : Grows trace yes]
    [second : Grows trace no] :
    Grows trace (if condition then yes else no) := by
  split
  · exact first
  · exact second

instance grows_foldlM (step : β → α → EStateM ε σ β) (items : List α)
    (start : β) [each : ∀ state item, Grows trace (step state item)] :
    Grows trace (items.foldlM step start) := by
  induction items generalizing start with
  | nil => exact grows_pure trace start
  | cons item items induction =>
      rw [List.foldlM_cons]
      have rest : ∀ value, Grows trace (items.foldlM step value) := induction
      exact grows_bind trace _ _

end Growth

/-- Unless it writes to the trace what is not allowed, the program succeeds
from `state` and establishes the postcondition. -/
def Ensures (trace : σ → List τ) (allowed : Set τ)
    (program : EStateM ε σ α) (state : σ) (post : α → σ → Prop) : Prop :=
  (∀ entry ∈ trace (final program state), entry ∈ allowed) →
    ∃ value state', program.run state = .ok value state' ∧ post value state'

variable {trace : σ → List τ} {allowed : Set τ} {program : EStateM ε σ α}
  {state : σ} {post : α → σ → Prop}

theorem Ensures.mono {weaker : α → σ → Prop}
    (triple : Ensures trace allowed program state post)
    (implies : ∀ value state', post value state' → weaker value state') :
    Ensures trace allowed program state weaker := by
  intro bounded
  obtain ⟨value, state', ran, holds⟩ := triple bounded
  exact ⟨value, state', ran, implies value state' holds⟩

/-- The postcondition may speak of the run itself. -/
theorem Ensures.with_run (triple : Ensures trace allowed program state post) :
    Ensures trace allowed program state fun value state' =>
      program.run state = .ok value state' ∧ post value state' := by
  intro bounded
  obtain ⟨value, state', ran, holds⟩ := triple bounded
  exact ⟨value, state', ran, ran, holds⟩

theorem Ensures.pure {value : α} (holds : post value state) :
    Ensures trace allowed (Pure.pure value : EStateM ε σ α) state post :=
  fun _ => ⟨value, state, rfl, holds⟩

/-- What the first part of a run writes is in the trace of the whole. -/
theorem subset_final_bind {next : α → EStateM ε σ β}
    [rest : ∀ value, Grows trace (next value)] :
    trace (final program state) ⊆ trace (final (program >>= next) state) := by
  unfold final
  rw [EStateM.run_bind]
  cases result : program.run state with
  | error error state' => exact List.Subset.refl _
  | ok value state' => exact (rest value).subset state'

theorem final_bind_of_ok {next : α → EStateM ε σ β} {value : α} {state' : σ}
    (ran : program.run state = .ok value state') :
    final (program >>= next) state = final (next value) state' := by
  unfold final
  rw [EStateM.run_bind, ran]

theorem Ensures.bind {next : α → EStateM ε σ β} {middle : α → σ → Prop}
    {post : β → σ → Prop} [∀ value, Grows trace (next value)]
    (first : Ensures trace allowed program state middle)
    (second : ∀ value state', middle value state' →
      Ensures trace allowed (next value) state' post) :
    Ensures trace allowed (program >>= next) state post := by
  intro bounded
  obtain ⟨value, state', ran, holds⟩ := first fun entry member =>
    bounded entry (subset_final_bind member)
  rw [final_bind_of_ok ran] at bounded
  obtain ⟨result, last, ran', holds'⟩ := second value state' holds bounded
  refine ⟨result, last, ?_, holds'⟩
  rw [EStateM.run_bind, ran]
  exact ran'

/-- A read-only step of the program. -/
theorem Ensures.bind_of_run {next : α → EStateM ε σ β} {value : α}
    {post : β → σ → Prop} (ran : program.run state = .ok value state)
    (rest : Ensures trace allowed (next value) state post) :
    Ensures trace allowed (program >>= next) state post := by
  have same : (program >>= next).run state = (next value).run state := by
    rw [EStateM.run_bind, ran]
  unfold Ensures final at rest ⊢
  rw [same]
  exact rest

/-- A loop that keeps a fact about how far it has come. -/
theorem Ensures.foldlM {step : β → α → EStateM ε σ β}
    [∀ value item, Grows trace (step value item)] {items : List α}
    {inv : List α → β → σ → Prop} {start : β}
    (init : inv [] start state)
    (each : ∀ before item after, items = before ++ item :: after →
      ∀ value state, inv before value state →
        Ensures trace allowed (step value item) state (inv (before ++ [item]))) :
    Ensures trace allowed (items.foldlM step start) state (inv items) := by
  have general : ∀ (before after : List α), items = before ++ after →
      ∀ value state, inv before value state →
        Ensures trace allowed (after.foldlM step value) state (inv items) := by
    intro before after
    induction after generalizing before with
    | nil =>
        intro split value state holds
        rw [List.append_nil] at split
        subst split
        exact Ensures.pure holds
    | cons item after induction =>
        intro split value state holds
        rw [List.foldlM_cons]
        refine Ensures.bind (each before item after split value state holds) ?_
        intro value' state' holds'
        exact induction (before ++ [item]) (by simpa using split) value' state'
          holds'
  exact general [] items rfl start state init

end Traced
