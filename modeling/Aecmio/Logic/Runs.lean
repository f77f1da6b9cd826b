import Mathlib.Tactic.Common

/-!
# Runs of a system

A system takes a step on an input if it can; a run takes one on each of a
list.  A condition may hold throughout a run, or there is a first step that
it does not hold of.
-/

namespace Runs

variable {σ ι : Type}

def run (step : σ → ι → Option σ) (state : σ) (inputs : List ι) : Option σ :=
  inputs.foldlM step state

/-- A condition on all the steps of a run. -/
def Throughout (step : σ → ι → Option σ) (condition : σ → ι → Prop) :
    σ → List ι → Prop
  | _, [] => True
  | state, input :: inputs => condition state input ∧
      ∀ state', step state input = some state' →
        Throughout step condition state' inputs

variable {step : σ → ι → Option σ} {condition : σ → ι → Prop}
  {state state' state'' : σ} {input : ι} {inputs front back : List ι}

theorem run_nil : run step state [] = some state := rfl

theorem run_cons : run step state (input :: inputs) = some state' ↔
    ∃ middle, step state input = some middle ∧
      run step middle inputs = some state' := by
  rw [run, List.foldlM_cons]
  exact Option.bind_eq_some_iff

theorem run_append : run step state (front ++ back) = some state' ↔
    ∃ middle, run step state front = some middle ∧
      run step middle back = some state' := by
  rw [run, List.foldlM_append]
  exact Option.bind_eq_some_iff

namespace Throughout

theorem cons (stepped : step state input = some state')
    (holds : condition state input)
    (throughout : Throughout step condition state' inputs) :
    Throughout step condition state (input :: inputs) := by
  refine ⟨holds, ?_⟩
  intro other stepped'
  rw [stepped] at stepped'
  cases stepped'
  exact throughout

theorem after (throughout : Throughout step condition state (front ++ back))
    (ran : run step state front = some state') :
    Throughout step condition state' back := by
  induction front generalizing state with
  | nil =>
      cases ran
      exact throughout
  | cons input front induction =>
      obtain ⟨middle, stepped, ran⟩ := run_cons.mp ran
      exact induction (throughout.2 middle stepped) ran

theorem before (throughout : Throughout step condition state (front ++ back)) :
    Throughout step condition state front := by
  induction front generalizing state with
  | nil => trivial
  | cons input front induction =>
      exact ⟨throughout.1, fun middle stepped =>
        induction (throughout.2 middle stepped)⟩

/-- A condition on all steps holds of any of them. -/
theorem here
    (throughout : Throughout step condition state (front ++ input :: back))
    (ran : run step state front = some state') : condition state' input :=
  (throughout.after ran).1

theorem mono {weaker : σ → ι → Prop}
    (implies : ∀ state input, condition state input → weaker state input)
    (throughout : Throughout step condition state inputs) :
    Throughout step weaker state inputs := by
  induction inputs generalizing state with
  | nil => trivial
  | cons input inputs induction =>
      exact ⟨implies _ _ throughout.1, fun middle stepped =>
        induction (throughout.2 middle stepped)⟩

/-- What every step keeps under the condition is kept by the run. -/
theorem keeps {invariant : σ → Prop}
    (kept : ∀ {state input state'}, invariant state → condition state input →
      step state input = some state' → invariant state')
    (throughout : Throughout step condition state inputs)
    (holds : invariant state) (ran : run step state inputs = some state') :
    invariant state' := by
  induction inputs generalizing state with
  | nil =>
      cases ran
      exact holds
  | cons input inputs induction =>
      obtain ⟨middle, stepped, ran⟩ := run_cons.mp ran
      exact induction (throughout.2 middle stepped)
        (kept holds throughout.1 stepped) ran

/-- The first step that a condition does not hold of. -/
theorem exists_first (fails : ¬ Throughout step condition state inputs)
    (ran : run step state inputs = some state'') :
    ∃ front input back middle middle', inputs = front ++ input :: back ∧
      run step state front = some middle ∧ step middle input = some middle' ∧
      ¬ condition middle input ∧ Throughout step condition state front := by
  induction inputs generalizing state with
  | nil => exact absurd trivial fails
  | cons input inputs induction =>
      obtain ⟨next, stepped, ran⟩ := run_cons.mp ran
      by_cases holds : condition state input
      · obtain ⟨front, input', back, middle, middle', split, ran', last,
          violated, throughout⟩ :=
            induction (fun throughout =>
              fails (throughout.cons stepped holds)) ran
        refine ⟨input :: front, input', back, middle, middle', ?_,
          run_cons.mpr ⟨next, stepped, ran'⟩, last, violated,
          throughout.cons stepped holds⟩
        rw [split, List.cons_append]
      · exact ⟨[], input, inputs, state, next, rfl, rfl, stepped, holds,
          trivial⟩

end Throughout

end Runs
