import Aecmio.Logic.Traced

/-!
# Invariants of programs that may throw

A program in `EStateM` keeps an invariant if the states that it leaves have
it, also those that an exception leaves.  What it returns may be known to have
some property.
-/

namespace Keeping

variable {ε σ α β : Type}

/-- The invariant holds of what the program leaves, and the property of what
it returns. -/
def Keeps (invariant : σ → Prop) (program : EStateM ε σ α)
    (property : α → Prop) : Prop :=
  ∀ state, invariant state →
    match program.run state with
    | .ok value state' => invariant state' ∧ property value
    | .error _ state' => invariant state'

variable {invariant : σ → Prop} {program : EStateM ε σ α}
  {property weaker : α → Prop} {state : σ}

theorem Keeps.final (keeps : Keeps invariant program property)
    (holds : invariant state) : invariant (Traced.final program state) := by
  have kept := keeps state holds
  unfold Traced.final
  cases result : program.run state with
  | ok value state' =>
      rw [result] at kept
      exact kept.1
  | error error state' =>
      rw [result] at kept
      exact kept

theorem Keeps.of_run {value : α} {state' : σ}
    (keeps : Keeps invariant program property) (holds : invariant state)
    (ran : program.run state = .ok value state') :
    invariant state' ∧ property value := by
  have kept := keeps state holds
  rw [ran] at kept
  exact kept

theorem Keeps.mono (keeps : Keeps invariant program property)
    (implies : ∀ value, property value → weaker value) :
    Keeps invariant program weaker := by
  intro state holds
  have kept := keeps state holds
  cases result : program.run state with
  | ok value state' =>
      rw [result] at kept
      exact ⟨kept.1, implies value kept.2⟩
  | error error state' =>
      rw [result] at kept
      exact kept

theorem keeps_pure {value : α} (holds : property value) :
    Keeps invariant (pure value : EStateM ε σ α) property :=
  fun _ kept => ⟨kept, holds⟩

theorem keeps_throw (error : ε) :
    Keeps invariant (throw error : EStateM ε σ α) property :=
  fun _ kept => kept

theorem keeps_get : Keeps invariant (get : EStateM ε σ σ) invariant :=
  fun _ kept => ⟨kept, kept⟩

theorem keeps_set {state' : σ} (holds : invariant state') :
    Keeps invariant (set state' : EStateM ε σ PUnit) fun _ => True :=
  fun _ _ => ⟨holds, trivial⟩

theorem keeps_modify {change : σ → σ}
    (kept : ∀ state, invariant state → invariant (change state)) :
    Keeps invariant (modify change : EStateM ε σ PUnit) fun _ => True :=
  fun state holds => ⟨kept state holds, trivial⟩

theorem Keeps.bind {next : α → EStateM ε σ β} {middle : α → Prop}
    {property : β → Prop} (first : Keeps invariant program middle)
    (second : ∀ value, middle value → Keeps invariant (next value) property) :
    Keeps invariant (program >>= next) property := by
  intro state holds
  have kept := first state holds
  rw [EStateM.run_bind]
  cases result : program.run state with
  | ok value state' =>
      rw [result] at kept
      exact second value kept.2 state' kept.1
  | error error state' =>
      rw [result] at kept
      exact kept

/-- What the first part returns does not matter. -/
theorem Keeps.seq {next : EStateM ε σ β} {property : β → Prop}
    (first : Keeps invariant program fun _ => True)
    (second : Keeps invariant next property) :
    Keeps invariant (program >>= fun _ => next) property :=
  first.bind fun _ _ => second

theorem Keeps.ite {condition : Prop} [Decidable condition]
    {yes no : EStateM ε σ α}
    (first : condition → Keeps invariant yes property)
    (second : ¬ condition → Keeps invariant no property) :
    Keeps invariant (if condition then yes else no) property := by
  split
  next holds => exact first holds
  next fails => exact second fails

end Keeping
