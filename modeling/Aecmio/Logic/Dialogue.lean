import Mathlib.Tactic.Common

/-!
# Programs that ask an environment

A dialogue is a program that puts questions to an environment and goes on
with the answers; what the environment does with them is left open.  A
process is a dialogue with a state and exceptions.  `Ensures` is the weakest
precondition over all answers that are allowed, with the record of what was
asked.
-/

namespace Dialogues

/-- The questions of an environment and the types of its answers. -/
structure Interface where
  Question : Type
  Answer : Question → Type

inductive Dialogue (I : Interface) (α : Type) where
  | done (value : α)
  | ask (question : I.Question) (next : I.Answer question → Dialogue I α)

namespace Dialogue

variable {I : Interface} {α β γ ε σ : Type}

/-- A question that was asked, with its answer. -/
abbrev Exchange (I : Interface) := (question : I.Question) × I.Answer question

def bind : Dialogue I α → (α → Dialogue I β) → Dialogue I β
  | done value, rest => rest value
  | ask question next, rest => ask question fun answer =>
      (next answer).bind rest

theorem bind_assoc (dialogue : Dialogue I α) (next : α → Dialogue I β)
    (last : β → Dialogue I γ) :
    (dialogue.bind next).bind last =
      dialogue.bind fun value => (next value).bind last := by
  induction dialogue with
  | done value => rfl
  | ask question rest induction =>
      exact congrArg (ask question) (funext induction)

theorem bind_done (dialogue : Dialogue I α) : dialogue.bind done = dialogue := by
  induction dialogue with
  | done value => rfl
  | ask question rest induction =>
      exact congrArg (ask question) (funext induction)

/-- Whatever allowed answers it gets, the dialogue ends in a value that meets
the postcondition, which may speak of the exchanges. -/
def Ensures (allowed : (question : I.Question) → I.Answer question → Prop) :
    Dialogue I α → (List (Exchange I) → α → Prop) → Prop
  | done value, post => post [] value
  | ask question next, post => ∀ answer, allowed question answer →
      (next answer).Ensures allowed fun exchanges =>
        post (⟨question, answer⟩ :: exchanges)

/-- Some allowed answers lead to the value. -/
inductive Yields
    (allowed : (question : I.Question) → I.Answer question → Prop) :
    Dialogue I α → List (Exchange I) → α → Prop
  | done (value : α) : Yields allowed (done value) [] value
  | ask {question : I.Question} {next : I.Answer question → Dialogue I α}
      {exchanges : List (Exchange I)} {value : α}
      (answer : I.Answer question) (granted : allowed question answer)
      (rest : Yields allowed (next answer) exchanges value) :
      Yields allowed (ask question next) (⟨question, answer⟩ :: exchanges)
        value

variable {allowed : (question : I.Question) → I.Answer question → Prop}
  {dialogue : Dialogue I α} {post : List (Exchange I) → α → Prop}

theorem ensures_iff_yields :
    dialogue.Ensures allowed post ↔ ∀ exchanges value,
      Yields allowed dialogue exchanges value → post exchanges value := by
  induction dialogue generalizing post with
  | done value =>
      constructor
      · intro holds exchanges result yields
        cases yields
        exact holds
      · intro holds
        exact holds [] value (.done value)
  | ask question next induction =>
      constructor
      · intro holds exchanges result yields
        cases yields with
        | ask answer granted rest =>
            exact (induction answer).mp (holds answer granted) _ _ rest
      · intro holds answer granted
        refine (induction answer).mpr ?_
        intro exchanges value rest
        exact holds _ _ (.ask answer granted rest)

theorem Ensures.mono {weaker : List (Exchange I) → α → Prop}
    (ensures : dialogue.Ensures allowed post)
    (implies : ∀ exchanges value, post exchanges value →
      weaker exchanges value) : dialogue.Ensures allowed weaker := by
  rw [ensures_iff_yields] at ensures ⊢
  intro exchanges value yields
  exact implies exchanges value (ensures exchanges value yields)

theorem ensures_bind {next : α → Dialogue I β}
    {post : List (Exchange I) → β → Prop} :
    (dialogue.bind next).Ensures allowed post ↔
      dialogue.Ensures allowed fun exchanges value =>
        (next value).Ensures allowed fun later => post (exchanges ++ later) := by
  induction dialogue generalizing post with
  | done value => exact Iff.rfl
  | ask question rest induction =>
      exact forall_congr' fun answer => imp_congr_right fun _ => induction answer

end Dialogue

/-! ## Processes -/

/-- A dialogue with a state and exceptions; an exception keeps the state. -/
def Process (I : Interface) (ε σ α : Type) :=
  σ → Dialogue I (EStateM.Result ε σ α)

namespace Process

open Dialogue (Exchange)

variable {I : Interface} {α β ε σ : Type}

/-- How the rest of a process goes on from a result. -/
def resume (next : α → Process I ε σ β) :
    EStateM.Result ε σ α → Dialogue I (EStateM.Result ε σ β)
  | .ok value state => next value state
  | .error error state => .done (.error error state)

instance : Monad (Process I ε σ) where
  pure value := fun state => .done (.ok value state)
  bind process next := fun state => (process state).bind (resume next)

instance : LawfulMonad (Process I ε σ) := by
  refine LawfulMonad.mk' (Process I ε σ) ?_ ?_ ?_
  · intro α process
    funext state
    have same : (resume fun value => (pure value : Process I ε σ α)) =
        Dialogue.done := by
      funext result
      cases result with
      | ok value state => rfl
      | error error state => rfl
    exact (congrArg (process state).bind same).trans (Dialogue.bind_done _)
  · intro α β value next
    rfl
  · intro α β γ process next last
    funext state
    have same : (fun result => (resume next result).bind (resume last)) =
        resume fun value => next value >>= last := by
      funext result
      cases result with
      | ok value state => rfl
      | error error state => rfl
    exact (Dialogue.bind_assoc _ _ _).trans
      (congrArg (process state).bind same)

instance : MonadStateOf σ (Process I ε σ) where
  get := fun state => .done (.ok state state)
  set state := fun _ => .done (.ok ⟨⟩ state)
  modifyGet change := fun state =>
    .done (.ok (change state).1 (change state).2)

instance : MonadExceptOf ε (Process I ε σ) where
  throw error := fun state => .done (.error error state)
  tryCatch process handle := fun state =>
    (process state).bind fun
      | .ok value state => .done (.ok value state)
      | .error error state => handle error state

/-- Put a question to the environment. -/
def ask (question : I.Question) : Process I ε σ (I.Answer question) :=
  fun state => .ask question fun answer => .done (.ok answer state)

variable {allowed : (question : I.Question) → I.Answer question → Prop}
  {state : σ}

/-- The weakest precondition of a process in a state. -/
def Ensures (allowed : (question : I.Question) → I.Answer question → Prop)
    (process : Process I ε σ α) (state : σ)
    (post : List (Exchange I) → EStateM.Result ε σ α → Prop) : Prop :=
  (process state).Ensures allowed post

theorem bind_apply (process : Process I ε σ α) (next : α → Process I ε σ β)
    (state : σ) :
    (process >>= next) state = (process state).bind (resume next) := rfl

theorem get_bind_apply (next : σ → Process I ε σ β) (state : σ) :
    ((get : Process I ε σ σ) >>= next) state = next state state := rfl

/-- A first action that succeeds at once. -/
theorem bind_of_ok {process : Process I ε σ α} {next : α → Process I ε σ β}
    {state' : σ} {value : α} (ran : process state = .done (.ok value state')) :
    (process >>= next) state = next value state' := by
  rw [bind_apply, ran]
  rfl

section

variable {post : List (Exchange I) → EStateM.Result ε σ α → Prop}

theorem Ensures.mono {process : Process I ε σ α}
    {weaker : List (Exchange I) → EStateM.Result ε σ α → Prop}
    (ensures : Ensures allowed process state post)
    (implies : ∀ exchanges result, post exchanges result →
      weaker exchanges result) : Ensures allowed process state weaker :=
  Dialogue.Ensures.mono ensures implies

@[simp]
theorem ensures_pure (value : α) :
    Ensures allowed (pure value : Process I ε σ α) state post ↔
      post [] (.ok value state) := Iff.rfl

@[simp]
theorem ensures_throw (error : ε) :
    Ensures allowed (throw error : Process I ε σ α) state post ↔
      post [] (.error error state) := Iff.rfl

@[simp]
theorem ensures_ite {condition : Prop} [Decidable condition]
    {yes no : Process I ε σ α} :
    Ensures allowed (if condition then yes else no) state post ↔
      if condition then Ensures allowed yes state post
      else Ensures allowed no state post := by
  split <;> exact Iff.rfl

end

@[simp]
theorem ensures_get {post : List (Exchange I) → EStateM.Result ε σ σ → Prop} :
    Ensures allowed (get : Process I ε σ σ) state post ↔
      post [] (.ok state state) := Iff.rfl

@[simp]
theorem ensures_set (new : σ)
    {post : List (Exchange I) → EStateM.Result ε σ PUnit → Prop} :
    Ensures allowed (set new : Process I ε σ PUnit) state post ↔
      post [] (.ok ⟨⟩ new) := Iff.rfl

@[simp]
theorem ensures_modify (change : σ → σ)
    {post : List (Exchange I) → EStateM.Result ε σ PUnit → Prop} :
    Ensures allowed (modify change : Process I ε σ PUnit) state post ↔
      post [] (.ok ⟨⟩ (change state)) := Iff.rfl

@[simp]
theorem ensures_ask (question : I.Question)
    {post : List (Exchange I) →
      EStateM.Result ε σ (I.Answer question) → Prop} :
    Ensures allowed (ask question) state post ↔
      ∀ answer, allowed question answer →
        post [⟨question, answer⟩] (.ok answer state) := Iff.rfl

@[simp]
theorem ensures_bind {process : Process I ε σ α} {next : α → Process I ε σ β}
    {post : List (Exchange I) → EStateM.Result ε σ β → Prop} :
    Ensures allowed (process >>= next) state post ↔
      Ensures allowed process state fun exchanges result =>
        match result with
        | .ok value state' => Ensures allowed (next value) state'
            fun later => post (exchanges ++ later)
        | .error error state' => post exchanges (.error error state') := by
  unfold Ensures
  rw [bind_apply, Dialogue.ensures_bind]
  constructor
  · intro ensures
    refine ensures.mono ?_
    intro exchanges result holds
    cases result with
    | ok value state' => exact holds
    | error error state' => simpa [resume, Dialogue.Ensures] using holds
  · intro ensures
    refine ensures.mono ?_
    intro exchanges result holds
    cases result with
    | ok value state' => exact holds
    | error error state' => simpa [resume, Dialogue.Ensures] using holds

/-! ### Rules for the first action of a sequence -/

section

variable {post : List (Exchange I) → EStateM.Result ε σ α → Prop}

theorem ensures_get_bind {next : σ → Process I ε σ α} :
    Ensures allowed (get >>= next) state post ↔
      Ensures allowed (next state) state post := Iff.rfl

theorem ensures_modify_bind {change : σ → σ}
    {next : PUnit → Process I ε σ α} :
    Ensures allowed (modify change >>= next) state post ↔
      Ensures allowed (next ⟨⟩) (change state) post := Iff.rfl

theorem ensures_set_bind {new : σ} {next : PUnit → Process I ε σ α} :
    Ensures allowed (set new >>= next) state post ↔
      Ensures allowed (next ⟨⟩) new post := Iff.rfl

theorem ensures_ask_bind {question : I.Question}
    {next : I.Answer question → Process I ε σ α} :
    Ensures allowed (ask question >>= next) state post ↔
      ∀ answer, allowed question answer →
        Ensures allowed (next answer) state fun exchanges =>
          post (⟨question, answer⟩ :: exchanges) := Iff.rfl

end

end Process

end Dialogues
