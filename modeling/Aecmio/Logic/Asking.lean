import Aecmio.Logic.Dialogue

/-!
# What a dialogue asks

A dialogue asks only legal questions when every question that can come up is
legal in view of the exchanges before it.  The record of a dialogue that came
to its end then holds legal questions only.
-/

namespace Dialogues

variable {I : Interface} {α β ε σ : Type}
  {allowed allowed' : (question : I.Question) → I.Answer question → Prop}

namespace Dialogue

/-- Every question is legal in view of the exchanges so far, newest first. -/
def Asks (allowed : (question : I.Question) → I.Answer question → Prop)
    (legal : List (Exchange I) → I.Question → Prop) :
    Dialogue I α → List (Exchange I) → Prop
  | done _, _ => True
  | ask question next, past => legal past question ∧
      ∀ answer, allowed question answer →
        (next answer).Asks allowed legal (⟨question, answer⟩ :: past)

variable {legal legal' : List (Exchange I) → I.Question → Prop}
  {dialogue : Dialogue I α} {past : List (Exchange I)}

theorem Asks.mono (asks : dialogue.Asks allowed legal past)
    (fewer : ∀ question answer, allowed' question answer →
      allowed question answer)
    (implies : ∀ past question, legal past question →
      legal' past question) : dialogue.Asks allowed' legal' past := by
  induction dialogue generalizing past with
  | done value => trivial
  | ask question next induction =>
      refine ⟨implies _ _ asks.1, ?_⟩
      intro answer granted
      exact induction answer (asks.2 answer (fewer _ _ granted))

theorem asks_bind {next : α → Dialogue I β} :
    (dialogue.bind next).Asks allowed legal past ↔
      dialogue.Asks allowed legal past ∧ ∀ exchanges value,
        Yields allowed dialogue exchanges value →
          (next value).Asks allowed legal (exchanges.reverse ++ past) := by
  induction dialogue generalizing past with
  | done value =>
      constructor
      · intro asks
        refine ⟨trivial, ?_⟩
        intro exchanges result yields
        cases yields
        exact asks
      · intro asks
        exact asks.2 [] value (.done value)
  | ask question rest induction =>
      constructor
      · rintro ⟨first, later⟩
        refine ⟨⟨first, fun answer granted =>
          ((induction answer).mp (later answer granted)).1⟩, ?_⟩
        intro exchanges value yields
        cases yields with
        | @ask _ _ exchanges _ answer granted restYields =>
            have asks := ((induction answer).mp (later answer granted)).2 _ _
              restYields
            simpa using asks
      · rintro ⟨⟨first, asks⟩, later⟩
        refine ⟨first, fun answer granted => (induction answer).mpr
          ⟨asks answer granted, ?_⟩⟩
        intro exchanges value yields
        have asks := later _ _ (.ask answer granted yields)
        simpa using asks

/-! ## Records of what was asked -/

/-- Whatever is in the record of a dialogue was legal at its time. -/
theorem Asks.legal_of_yields {exchanges before later : List (Exchange I)}
    {exchange : Exchange I} {value : α} (asks : dialogue.Asks allowed legal past)
    (yields : Yields allowed dialogue exchanges value)
    (split : exchanges = before ++ exchange :: later) :
    legal (before.reverse ++ past) exchange.1 := by
  induction yields generalizing past before with
  | done value => cases before <;> cases split
  | ask answer granted rest induction =>
      cases before with
      | nil =>
          cases split
          exact asks.1
      | cons first before =>
          cases split
          rw [List.reverse_cons, List.append_assoc]
          exact induction (asks.2 answer granted) rfl

/-- The record and the value when every question has one answer. -/
def transcript (answers : (question : I.Question) → I.Answer question) :
    Dialogue I α → List (Exchange I) × α
  | done value => ([], value)
  | ask question next =>
      let rest := (next (answers question)).transcript answers
      (⟨question, answers question⟩ :: rest.1, rest.2)

theorem yields_transcript
    {answers : (question : I.Question) → I.Answer question}
    (grants : ∀ question, allowed question (answers question))
    (dialogue : Dialogue I α) :
    Yields allowed dialogue (dialogue.transcript answers).1
      (dialogue.transcript answers).2 := by
  induction dialogue with
  | done value => exact .done value
  | ask question next induction =>
      exact .ask _ (grants question) (induction _)

/-! ## Questions that a postcondition speaks of -/

theorem Ensures.exists_post {post : List (Exchange I) → α → Prop}
    (answerable : ∀ question, ∃ answer, allowed question answer)
    (ensures : dialogue.Ensures allowed post) :
    ∃ exchanges value, post exchanges value := by
  induction dialogue generalizing post with
  | done value => exact ⟨[], value, ensures⟩
  | ask question next induction =>
      obtain ⟨answer, granted⟩ := answerable question
      obtain ⟨exchanges, value, holds⟩ :=
        induction answer (ensures answer granted)
      exact ⟨_, value, holds⟩

/-- A question is legal if one of its answers cannot be part of exchanges that
meet the postcondition otherwise. -/
theorem Ensures.asks {legal : I.Question → Prop}
    {post : List (Exchange I) → α → Prop}
    (ensures : dialogue.Ensures allowed post)
    (telling : ∀ question, ∃ answer, allowed question answer ∧
      ∀ exchanges value, ⟨question, answer⟩ ∈ exchanges →
        post exchanges value → legal question) :
    dialogue.Asks allowed (fun _ question => legal question) past := by
  have answerable : ∀ question, ∃ answer, allowed question answer :=
    fun question => (telling question).imp fun _ both => both.1
  induction dialogue generalizing past post with
  | done value => trivial
  | ask question next induction =>
      constructor
      · obtain ⟨answer, granted, tells⟩ := telling question
        obtain ⟨exchanges, value, holds⟩ :=
          (ensures answer granted).exists_post answerable
        exact tells _ value (List.mem_cons_self ..) holds
      · intro answer granted
        refine induction answer (ensures answer granted) ?_
        intro other
        obtain ⟨answer', granted', tells⟩ := telling other
        refine ⟨answer', granted', ?_⟩
        intro exchanges value member holds
        exact tells _ value (List.mem_cons_of_mem _ member) holds

end Dialogue

/-! ## Processes -/

namespace Process

open Dialogue (Exchange)

variable {legal : List (Exchange I) → I.Question → Prop}

def Asks (allowed : (question : I.Question) → I.Answer question → Prop)
    (legal : List (Exchange I) → I.Question → Prop)
    (process : Process I ε σ α) (state : σ) (past : List (Exchange I)) :
    Prop :=
  (process state).Asks allowed legal past

/-- The process asks legal questions in every state, whatever came before. -/
def Always (allowed : (question : I.Question) → I.Answer question → Prop)
    (legal : List (Exchange I) → I.Question → Prop)
    (process : Process I ε σ α) : Prop :=
  ∀ state past, Asks allowed legal process state past

theorem always_pure (value : α) :
    Always allowed legal (pure value : Process I ε σ α) :=
  fun _ _ => trivial

theorem always_throw (error : ε) :
    Always allowed legal (throw error : Process I ε σ α) :=
  fun _ _ => trivial

theorem always_get : Always allowed legal (get : Process I ε σ σ) :=
  fun _ _ => trivial

theorem always_set (new : σ) :
    Always allowed legal (set new : Process I ε σ PUnit) :=
  fun _ _ => trivial

theorem always_modify (change : σ → σ) :
    Always allowed legal (modify change : Process I ε σ PUnit) :=
  fun _ _ => trivial

theorem always_ask {question : I.Question}
    (allows : ∀ past, legal past question) :
    Always allowed legal (ask question : Process I ε σ _) :=
  fun _ past => ⟨allows past, fun _ _ => trivial⟩

theorem always_ite {condition : Prop} [Decidable condition]
    {yes no : Process I ε σ α} (first : Always allowed legal yes)
    (second : Always allowed legal no) :
    Always allowed legal (if condition then yes else no) := by
  split
  · exact first
  · exact second

theorem asks_ask_bind {question : I.Question}
    {next : I.Answer question → Process I ε σ α} {state : σ}
    {past : List (Exchange I)} :
    Asks allowed legal (ask question >>= next) state past ↔
      legal past question ∧ ∀ answer, allowed question answer →
        Asks allowed legal (next answer) state (⟨question, answer⟩ :: past) :=
  Iff.rfl

theorem asks_get_bind {next : σ → Process I ε σ α} {state : σ}
    {past : List (Exchange I)} :
    Asks allowed legal (get >>= next) state past ↔
      Asks allowed legal (next state) state past :=
  Iff.rfl

theorem asks_modify_bind {change : σ → σ} {next : PUnit → Process I ε σ α}
    {state : σ} {past : List (Exchange I)} :
    Asks allowed legal (modify change >>= next) state past ↔
      Asks allowed legal (next ⟨⟩) (change state) past :=
  Iff.rfl

theorem always_bind {process : Process I ε σ α}
    {next : α → Process I ε σ β} (first : Always allowed legal process)
    (rest : ∀ value, Always allowed legal (next value)) :
    Always allowed legal (process >>= next) := by
  intro state past
  refine Dialogue.asks_bind.mpr ⟨first state past, ?_⟩
  intro exchanges result _
  cases result with
  | ok value state' => exact rest value state' _
  | error error state' => trivial

/-! ### What a process does not touch -/

/-- The process keeps a property of its state, unless it throws. -/
def Leaves (allowed : (question : I.Question) → I.Answer question → Prop)
    (property : σ → Prop) (process : Process I ε σ α) : Prop :=
  ∀ state, property state →
    Ensures allowed process state fun _ result =>
      ∀ value state', result = .ok value state' → property state'

variable {property : σ → Prop}

theorem leaves_pure (value : α) :
    Leaves allowed property (pure value : Process I ε σ α) := by
  rintro state holds _ _ ⟨⟩
  exact holds

theorem leaves_throw (error : ε) :
    Leaves allowed property (throw error : Process I ε σ α) := by
  rintro state holds _ _ ⟨⟩

theorem leaves_get :
    Leaves allowed property (get : Process I ε σ σ) := by
  rintro state holds _ _ ⟨⟩
  exact holds

theorem leaves_modify {change : σ → σ}
    (kept : ∀ state, property state → property (change state)) :
    Leaves allowed property (modify change : Process I ε σ PUnit) := by
  rintro state holds _ _ ⟨⟩
  exact kept state holds

theorem leaves_ask (question : I.Question) :
    Leaves allowed property (ask question : Process I ε σ _) := by
  rintro state holds _ _ _ _ ⟨⟩
  exact holds

theorem leaves_ite {condition : Prop} [Decidable condition]
    {yes no : Process I ε σ α} (first : Leaves allowed property yes)
    (second : Leaves allowed property no) :
    Leaves allowed property (if condition then yes else no) := by
  split
  · exact first
  · exact second

theorem leaves_bind {process : Process I ε σ α}
    {next : α → Process I ε σ β} (first : Leaves allowed property process)
    (rest : ∀ value, Leaves allowed property (next value)) :
    Leaves allowed property (process >>= next) := by
  intro state holds
  rw [ensures_bind]
  refine (first state holds).mono ?_
  intro exchanges result kept
  cases result with
  | ok value state' => exact rest value state' (kept value state' rfl)
  | error error state' =>
      rintro _ _ ⟨⟩

/-- A sequence whose rest asks legal questions where the property holds. -/
theorem Always.asks_bind {process : Process I ε σ α}
    {next : α → Process I ε σ β} {state : σ} {past : List (Exchange I)}
    (first : Always allowed legal process)
    (leaves : Leaves allowed property process) (holds : property state)
    (rest : ∀ value state' past', property state' →
      Asks allowed legal (next value) state' past') :
    Asks allowed legal (process >>= next) state past := by
  refine Dialogue.asks_bind.mpr ⟨first state past, ?_⟩
  intro exchanges result yields
  cases result with
  | ok value state' =>
      exact rest value state' _
        (Dialogue.ensures_iff_yields.mp (leaves state holds) _ _ yields value
          state' rfl)
  | error error state' => trivial

end Process

end Dialogues
