import Aecmio.State.CodeLength

/-!
# Processes with a shared cache of sizes

However the states of a process are used, `codeSize` gives the size of `code`
at every address of each, if and only if no account with a new code has been
killed.
-/

namespace Aecmio

open Keeping Runs Traced

section

variable [Hashing]

variable {known : Set Bytes} {account : Account} {addr : Address}
  {process process' start : SharedStates}

/-! ## Methods -/

/-- The codes that a method puts into a state. -/
def Action.codes : Action → List Bytes
  | .call (.setCode _ code) => [code]
  | .populateFrom map => map.filterMap fun entry => entry.2.code
  | _ => []

/-- A root that a state is set to is that of a trie of accounts. -/
def Action.Reads (state : State) : Action → Prop
  | .setRoot root => ∀ contents, state.db.openTrie root = .ok contents →
      Furnished state.db contents
  | _ => True

/-- No account with a new code is killed. -/
def Action.Spares (state : State) : Action → Prop
  | .call (.kill addr) => Spared state addr
  | _ => True

theorem Action.run_read {query : Query} (other : ∀ addr, query ≠ .code addr) :
    (Action.call (.read query)).run = onState query.run := by
  cases query with
  | code addr => exact absurd rfl (other addr)
  | balance addr => rfl
  | getNonce addr => rfl
  | storage addr key => rfl
  | codeHash addr => rfl
  | addressInUse addr => rfl
  | accountNonemptyAndExisting addr => rfl
  | addressHasCode addr => rfl

theorem Keeps.fits {α : Type} {method : SizedM α} {property : α → Prop}
    {sized : Sized} (fits : Fits known sized)
    (keeps : Keeps (FitsAt known sized.state.db) method property) :
    Fits known (final method sized) :=
  (keeps.final fits.fitsAt).fits

theorem fits_action (empty : [] ∈ known) {sized : Sized}
    (fits : Fits known sized) {action : Action}
    (inside : ∀ code ∈ action.codes, code ∈ known)
    (furnished : action.Reads sized.state)
    (spares : action.Spares sized.state) :
    Fits known (final action.run sized) := by
  cases action with
  | call call =>
      cases call with
      | read query =>
          by_cases loads : ∃ addr, query = .code addr
          · obtain ⟨addr, rfl⟩ := loads
            have ignored : Keeps (FitsAt known sized.state.db)
                (Action.call (.read (.code addr))).run fun _ => True :=
              (keeps_code empty addr).bind fun code _ => keeps_pure trivial
            exact Keeps.fits fits ignored
          · rw [Action.run_read (not_exists.mp loads)]
            exact Keeps.fits fits
              (keeps_onState (keeps_query empty (not_exists.mp loads)))
      | addBalance addr amount =>
          exact Keeps.fits fits (keeps_onState (keeps_addBalance empty _ _))
      | subBalance addr value =>
          exact Keeps.fits fits (keeps_onState (keeps_subBalance empty _ _))
      | transferBalance sender recipient value =>
          exact Keeps.fits fits
            (keeps_onState (keeps_transferBalance empty _ _ _))
      | setBalance addr value =>
          exact Keeps.fits fits (keeps_onState (keeps_setBalance empty _ _))
      | incNonce addr =>
          exact Keeps.fits fits (keeps_onState (keeps_incNonce empty _))
      | setNonce addr newNonce =>
          exact Keeps.fits fits (keeps_onState (keeps_setNonce empty _ _))
      | setStorage addr key value =>
          exact Keeps.fits fits (keeps_onState (keeps_setStorage empty _ _ _))
      | clearStorage addr =>
          exact Keeps.fits fits (keeps_onState (keeps_clearStorage empty _))
      | setCode addr code =>
          exact Keeps.fits fits
            (keeps_setCode empty addr (inside code List.mem_cons_self))
      | kill addr =>
          obtain ⟨-, killed⟩ := final_kill empty fits.state spares
          show Fits known (final (onState (State.kill addr)) sized)
          rw [final_onState]
          exact ⟨killed, fits.sizes⟩
      | rollback savepoint =>
          exact Keeps.fits fits (keeps_onState (keeps_rollback empty _))
      | commit behaviour => exact fits_commit fits behaviour
  | codeSize addr =>
      have ignored : Keeps (FitsAt known sized.state.db)
          (Action.codeSize addr).run fun _ => True :=
        (keeps_codeSize empty addr).bind fun size _ => keeps_pure trivial
      exact Keeps.fits fits ignored
  | createContract addr =>
      exact Keeps.fits fits (keeps_onState (keeps_createContract empty addr))
  | setRoot root =>
      exact Keeps.fits fits (keeps_onState (keeps_stateRoot furnished))
  | revert =>
      have cleared : Keeps (StockedAt known sized.state.db) State.revert
          fun _ => True := by
        apply keeps_modify
        rintro state ⟨same, stocked⟩
        refine ⟨same, stocked.congr rfl rfl ?_ rfl⟩
        intro addr account found
        cases found
      exact Keeps.fits fits (keeps_onState cleared)
  | populateFrom map =>
      apply fits_populateFrom empty fits
      intro entry member code same
      exact inside code (List.mem_filterMap.mpr ⟨entry, member, same⟩)

/-! ## The invariant of a process -/

namespace SharedStates

/-- `codeSize` and `code`, asked of one state, agree. -/
def SizeRight (process : SharedStates) (index : Nat) (addr : Address) : Prop :=
  ∃ size code afterSize afterCode,
    (Sized.codeSize addr).run (process.sized index) = .ok size afterSize ∧
      (Sized.code addr).run (process.sized index) = .ok code afterCode ∧
      size = code.length

structure Fit (known : Set Bytes) (process : SharedStates) : Prop where
  states : ∀ index, Stocked known (process.states index)
  sizes : Honest known process.sizes

theorem Fit.sized (fit : Fit known process) (index : Nat) :
    Fits known (process.sized index) :=
  ⟨fit.states index, fit.sizes⟩

/-- States that have just been opened, before any size is stored. -/
structure Started (known : Set Bytes) (process : SharedStates) : Prop where
  codes : ∀ index, ∀ code ∈ (process.states index).db.codes, code ∈ known
  trie : ∀ index,
    Furnished (process.states index).db (process.states index).trie
  cache : ∀ index, (process.states index).cache = ∅
  changeLog : ∀ index, (process.states index).changeLog = []
  sizes : process.sizes.cache = ∅

theorem Started.fit (started : Started known start) : Fit known start := by
  constructor
  · intro index
    refine ⟨started.codes index, started.trie index, ?_, ?_⟩
    · intro addr account found
      rw [started.cache index] at found
      cases found
    · intro addr old member
      rw [started.changeLog index] at member
      cases member
  · intro hash size found
    rw [started.sizes] at found
    cases found

theorem Fit.sizeRight (fit : Fit known process) (empty : [] ∈ known)
    (injective : Set.InjOn sha3 known) (index : Nat) (addr : Address) :
    process.SizeRight index addr := by
  have fitting := (fit.sized index).fitsAt
  obtain ⟨result, state', ran, found⟩ :=
    run_account (fit.states index) addr
  have ran' : (State.account addr).run (process.sized index).state =
    .ok result state' := ran
  obtain ⟨kept, -⟩ := (keeps_onState (keeps_account empty addr)).of_run fitting
    (run_onState_ok ran')
  cases result with
  | none =>
      refine ⟨0, [], { process.sized index with state := state' },
        { process.sized index with state := state' }, ?_, ?_, rfl⟩
      · rw [Sized.codeSize, EStateM.run_bind, run_onState_ok ran']
        rfl
      · rw [Sized.code, EStateM.run_bind, run_onState_ok ran']
        rfl
  | some account =>
      obtain ⟨size, afterSize, sizes, -, other, inside', same, length⟩ :=
        run_codeSize empty kept (found account rfl)
      obtain ⟨code, afterCode, codes, -, inside, hash⟩ :=
        run_code empty kept (found account rfl)
      refine ⟨size, code, afterSize, afterCode, ?_, ?_, ?_⟩
      · rw [Sized.codeSize, run_again ran' (found account rfl)]
        exact sizes
      · rw [Sized.code, run_again ran' (found account rfl)]
        exact codes
      · rw [← length, injective inside' inside (same.trans hash.symm)]

/-- The codes that an input puts into a state. -/
def Input.codes : Input → List Bytes
  | .act _ action => action.codes
  | .assign _ _ => []

/-- A root that a state is set to is that of a trie of accounts. -/
def Reads (process : SharedStates) : Input → Prop
  | .act index action => action.Reads (process.states index)
  | .assign _ _ => True

/-- No account with a new code is killed. -/
def Spares (process : SharedStates) : Input → Prop
  | .act index action => action.Spares (process.states index)
  | .assign _ _ => True

theorem Fit.step (fit : Fit known process) (empty : [] ∈ known) {input : Input}
    (inside : ∀ code ∈ input.codes, code ∈ known) (reads : process.Reads input)
    (spares : process.Spares input)
    (stepped : process.step input = some process') : Fit known process' := by
  cases input with
  | act index action =>
      cases stepped
      have after := fits_action empty (fit.sized index) inside reads spares
      refine ⟨?_, after.sizes⟩
      intro other
      dsimp only
      by_cases same : other = index
      · rw [same, Function.update_self]
        exact after.state
      · rw [Function.update_of_ne same]
        exact fit.states other
  | assign index source =>
      cases stepped
      refine ⟨?_, fit.sizes⟩
      intro other
      dsimp only
      have assigned := fit.states source
      by_cases same : other = index
      · rw [same, Function.update_self]
        exact ⟨assigned.codes, assigned.trie, assigned.cache,
          (fit.states index).log⟩
      · rw [Function.update_of_ne same]
        exact fit.states other

theorem Fit.run (fit : Fit known start) (empty : [] ∈ known)
    {inputs : List Input}
    (inside : ∀ input ∈ inputs, ∀ code ∈ input.codes, code ∈ known)
    (reads : Throughout SharedStates.step Reads start inputs)
    (spares : Throughout SharedStates.step Spares start inputs)
    (ran : Runs.run SharedStates.step start inputs = some process) :
    Fit known process := by
  induction inputs generalizing start with
  | nil =>
      cases ran
      exact fit
  | cons input inputs induction =>
      obtain ⟨middle, stepped, ran⟩ := run_cons.mp ran
      have next := fit.step empty (inside input List.mem_cons_self) reads.1
        spares.1 stepped
      apply induction next _ (reads.2 middle stepped) (spares.2 middle stepped)
        ran
      intro other member
      exact inside other (List.mem_cons_of_mem _ member)

theorem run_total (start : SharedStates) (inputs : List Input) :
    ∃ process, Runs.run SharedStates.step start inputs = some process := by
  induction inputs generalizing start with
  | nil => exact ⟨start, rfl⟩
  | cons input inputs induction =>
      cases input with
      | act index action =>
          obtain ⟨process, ran⟩ := induction _
          exact ⟨process, run_cons.mpr ⟨_, rfl, ran⟩⟩
      | assign index source =>
          obtain ⟨process, ran⟩ := induction _
          exact ⟨process, run_cons.mpr ⟨_, rfl, ran⟩⟩

theorem exists_kill {input : Input} (kills : ¬ process.Spares input) :
    ∃ index addr account, input = .act index (.call (.kill addr)) ∧
      (process.states index).cache.lookup addr = some account ∧
      account.hasNewCode = true ∧ account.codeCache ≠ [] := by
  cases input with
  | assign index source => exact absurd trivial kills
  | act index action =>
      cases action with
      | call call =>
          cases call with
          | kill addr =>
              have kills : ¬ ∀ account,
                  (process.states index).cache.lookup addr = some account →
                  account.hasNewCode = true → account.codeCache = [] := kills
              push Not at kills
              obtain ⟨account, found, new, nonempty⟩ := kills
              exact ⟨index, addr, account, rfl, found, new, nonempty⟩
          | _ => exact absurd trivial kills
      | _ => exact absurd trivial kills

/-- What is left of an account with a new code is wrong. -/
theorem not_sizeRight_of_kill {index : Nat}
    (found : (process.states index).cache.lookup addr = some account)
    (new : account.hasNewCode = true) (nonempty : account.codeCache ≠ [])
    (stepped : process.step (.act index (.call (.kill addr))) = some process') :
    ¬ process'.SizeRight index addr := by
  cases stepped
  have killed : final (Action.call (.kill addr)).run (process.sized index) =
      ⟨(process.states index).store addr account.kill, process.sizes⟩ := by
    have cached : (State.account addr).run (process.sized index).state =
      .ok (some account) (process.states index) := run_account_cached found
    show final (onState (State.kill addr)) (process.sized index) = _
    rw [final_onState, State.kill, final_bind_of_ok cached]
    rfl
  rw [killed]
  rintro ⟨size, code, afterSize, afterCode, sizes, codes, same⟩
  have here : (SharedStates.sized ⟨Function.update process.states index
      ((process.states index).store addr account.kill), process.sizes⟩
      index).state.cache.lookup addr = some account.kill := by
    simp [SharedStates.sized, State.store]
  obtain ⟨other, ran⟩ := run_code_cached here
  rw [run_codeSize_new here new] at sizes
  rw [ran] at codes
  cases sizes
  cases codes
  rw [Account.codeOf, if_pos (show account.kill.codeHash = emptySHA3 from rfl)]
    at same
  exact nonempty (List.length_eq_zero_iff.mp same)

end SharedStates

/-- In all the states that a run of a process reaches, the size of the code of
every address is that of its code, if and only if no step of the run kills an
account with a new code. -/
theorem SharedStates.codeSize_eq_iff {known : Set Bytes}
    (injective : Set.InjOn sha3 known) (empty : [] ∈ known)
    {start : SharedStates}
    (started : start.Started known) {inputs : List SharedStates.Input}
    (inside : ∀ input ∈ inputs, ∀ code ∈ input.codes, code ∈ known)
    (reads : Throughout SharedStates.step SharedStates.Reads start inputs) :
    (∀ front back process, inputs = front ++ back →
      Runs.run SharedStates.step start front = some process →
      ∀ index addr, process.SizeRight index addr) ↔
    Throughout SharedStates.step SharedStates.Spares start inputs := by
  have fit := started.fit
  constructor
  · intro right
    by_contra fails
    obtain ⟨last, ran⟩ := SharedStates.run_total start inputs
    obtain ⟨front, input, back, middle, middle', split, ran, stepped, kills,
      -⟩ := Throughout.exists_first fails ran
    obtain ⟨index, addr, account, rfl, found, new, nonempty⟩ :=
      SharedStates.exists_kill kills
    apply SharedStates.not_sizeRight_of_kill found new nonempty stepped
    apply right (front ++ [.act index (.call (.kill addr))]) back middle'
    · rw [split, List.append_assoc]
      rfl
    · exact run_append.mpr ⟨middle, ran, run_cons.mpr ⟨middle', stepped, rfl⟩⟩
  · rintro spares front back process rfl ran index addr
    apply SharedStates.Fit.sizeRight _ empty injective
    apply fit.run empty _ reads.before spares.before ran
    intro input member
    exact inside input (List.mem_append_left back member)

end

section Sample

attribute [local instance] sampleHashing

/-- All states are the sample. -/
def sampleProcess : SharedStates where
  states _ := sampleState
  sizes := { randomness := fun _ => 0 }

/-- A code is set, and written by a commit of another state. -/
def sampleInputs : List SharedStates.Input :=
  [.act 0 (.call (.setCode sampleAddress [0])), .assign 1 0,
    .act 1 (.call (.addBalance sampleAddress 5)),
    .act 1 (.call (.commit .keepEmptyAccounts)),
    .act 1 (.codeSize sampleAddress)]

theorem sampleState_furnished : Furnished sampleState.db sampleState.trie := by
  intro addr text found
  obtain ⟨fields, same, -, code⟩ := sampleState_opened.complete addr text found
  exact ⟨fields, same, code⟩

theorem sampleProcess_started : sampleProcess.Started {[], [0]} := by
  refine ⟨?_, fun _ => sampleState_furnished, fun _ => rfl, fun _ => rfl, rfl⟩
  intro index code member
  cases member

theorem sha3_injOn_sample : Set.InjOn sha3 ({[], [0]} : Set Bytes) := by
  rintro code (rfl | rfl) other (rfl | rfl) same
  · rfl
  · revert same
    decide +kernel
  · revert same
    decide +kernel
  · rfl

/-- The codes of the sample may be asked for at any time. -/
theorem SharedStates.codeSize_eq_iff_sample :
    Throughout SharedStates.step SharedStates.Spares sampleProcess
        sampleInputs ∧
      ∀ front back process, sampleInputs = front ++ back →
        Runs.run SharedStates.step sampleProcess front = some process →
        ∀ index addr, process.SizeRight index addr := by
  have spares : Throughout SharedStates.step SharedStates.Spares
      sampleProcess sampleInputs :=
    ⟨trivial, fun _ _ => ⟨trivial, fun _ _ => ⟨trivial, fun _ _ =>
      ⟨trivial, fun _ _ => ⟨trivial, fun _ _ => trivial⟩⟩⟩⟩⟩
  refine ⟨spares, (SharedStates.codeSize_eq_iff sha3_injOn_sample (by simp)
    sampleProcess_started ?_ ?_).mpr spares⟩
  · simp [sampleInputs, SharedStates.Input.codes, Action.codes]
  · exact ⟨trivial, fun _ _ => ⟨trivial, fun _ _ => ⟨trivial, fun _ _ =>
      ⟨trivial, fun _ _ => ⟨trivial, fun _ _ => trivial⟩⟩⟩⟩⟩

/-- After its account is killed, a code has no bytes and a size of one. -/
theorem SharedStates.codeSize_ne_sample :
    ∃ process, Runs.run SharedStates.step sampleProcess
        [.act 0 (.call (.setCode sampleAddress [0])),
          .act 0 (.call (.kill sampleAddress))] = some process ∧
      ¬ process.SizeRight 0 sampleAddress := by
  let middle : SharedStates :=
    ⟨Function.update sampleProcess.states 0
      (final (Action.call (.setCode sampleAddress [0])).run
        (sampleProcess.sized 0)).state, sampleProcess.sizes⟩
  have cached : ((middle.states 0).cache.lookup sampleAddress).map
      (fun account => (account.hasNewCode, account.codeCache)) =
        some (true, [0]) := by
    decide +kernel
  obtain ⟨account, found, same⟩ := Option.map_eq_some_iff.mp cached
  obtain ⟨new, code⟩ := Prod.mk.inj same
  have nonempty : account.codeCache ≠ [] := by
    rw [code]
    decide
  exact ⟨_, rfl, SharedStates.not_sizeRight_of_kill found new nonempty rfl⟩

end Sample

end Aecmio
