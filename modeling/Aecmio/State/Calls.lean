import Aecmio.State.Commit

/-!
# Runs of calls

A run is a list of calls of public methods.  A call that throws leaves the
state it has reached, and the run goes on.  From a freshly opened state every
run keeps the invariant, as long as code is set on dirty accounts only and no
rollback undoes the touch of an account that has been killed since.
-/

namespace Aecmio

open Traced

variable [Hashing]

/-- The methods that read. -/
inductive Query where
  | balance (addr : Address)
  | getNonce (addr : Address)
  | storage (addr : Address) (key : U256)
  | code (addr : Address)
  | codeHash (addr : Address)
  | addressInUse (addr : Address)
  | accountNonemptyAndExisting (addr : Address)
  | addressHasCode (addr : Address)
deriving DecidableEq

inductive Call where
  | read (query : Query)
  | addBalance (addr : Address) (amount : U256)
  | subBalance (addr : Address) (value : U256)
  | transferBalance (sender recipient : Address) (value : U256)
  | setBalance (addr : Address) (value : U256)
  | incNonce (addr : Address)
  | setNonce (addr : Address) (newNonce : U256)
  | setStorage (addr : Address) (key value : U256)
  | clearStorage (addr : Address)
  | setCode (addr : Address) (code : Bytes)
  | kill (addr : Address)
  | rollback (savepoint : Nat)
  | commit (behaviour : CommitBehaviour)
deriving DecidableEq

def Query.run : Query → StateM Unit
  | .balance addr => do let _ ← State.balance addr
  | .getNonce addr => do let _ ← State.getNonce addr
  | .storage addr key => do let _ ← State.storage addr key
  | .code addr => do let _ ← State.code addr
  | .codeHash addr => do let _ ← State.codeHash addr
  | .addressInUse addr => do let _ ← State.addressInUse addr
  | .accountNonemptyAndExisting addr => do
      let _ ← State.accountNonemptyAndExisting addr
  | .addressHasCode addr => do let _ ← State.addressHasCode addr

def Call.run : Call → StateM Unit
  | .read query => query.run
  | .addBalance addr amount => State.addBalance addr amount
  | .subBalance addr value => State.subBalance addr value
  | .transferBalance sender recipient value =>
      State.transferBalance sender recipient value
  | .setBalance addr value => State.setBalance addr value
  | .incNonce addr => State.incNonce addr
  | .setNonce addr newNonce => State.setNonce addr newNonce
  | .setStorage addr key value => State.setStorage addr key value
  | .clearStorage addr => State.clearStorage addr
  | .setCode addr code => State.setCode addr code
  | .kill addr => State.kill addr
  | .rollback savepoint => State.rollback savepoint
  | .commit behaviour => State.commit behaviour

/-- The state after a run. -/
def after (calls : List Call) (state : State) : State :=
  calls.foldl (fun state call => final call.run state) state

/-- Every call of the run meets the condition in the state it is made in. -/
def Along (condition : State → Call → Prop) : State → List Call → Prop
  | _, [] => True
  | state, call :: calls =>
      condition state call ∧ Along condition (final call.run state) calls

/-- The state has just been opened at a root of a complete database. -/
structure Opened (state : State) : Prop where
  trie : state.db.openTrie state.rootHash = .ok state.trie
  complete : Complete state.db state.trie
  cache : state.cache = ∅
  absent : state.nonExistingAccountsCache = []
  changeLog : state.changeLog = []

/-- No two tries or codes in the database after the call collide. -/
def Collisionless (state : State) (call : Call) : Prop :=
  (final call.run state).db.Injective

/-- Code is set on dirty accounts only, and a rollback to a savepoint within
the log undoes no touch of an account that is dead now. -/
def Careful (state : State) : Call → Prop
  | .setCode addr _ => ∀ account, state.seen addr = some account →
      account.isDirty = true
  | .rollback savepoint => savepoint ≤ state.savepoint ∧
      ∀ addr account, ⟨addr, .touch⟩ ∈
          state.changeLog.take (state.savepoint - savepoint) →
        state.cache.lookup addr = some account → account.isAlive = true
  | _ => True

section

variable {state state' : State}

theorem Opened.coherent (opened : Opened state) : Coherent state := by
  refine ⟨(OverlayDB.openTrie_spec opened.trie).1, opened.complete, ?_, ?_,
    ?_, ?_⟩
  · intro addr member
    rw [opened.absent] at member
    cases member
  · intro addr account found
    rw [opened.cache] at found
    cases found
  · intro addr
    rw [opened.cache, opened.changeLog]
    rfl
  · intro change member
    rw [opened.changeLog] at member
    cases member

/-! ## Commit keeps the invariant -/

theorem Committed.lookup {behaviour : CommitBehaviour}
    (committed : Committed behaviour state state') {addr : Address}
    (missing : state.cache.lookup addr = none) :
    state'.trie.lookup addr.val = state.trie.lookup addr.val := by
  apply committed.frame
  intro other cached same
  obtain rfl : addr = other := Subtype.ext same
  exact cached missing

theorem Committed.coherent {behaviour : CommitBehaviour}
    (complete : Complete state.db state.trie)
    (absent : ∀ addr ∈ state.nonExistingAccountsCache,
      state.stored addr = none ∧
        ∀ account, state.cache.lookup addr = some account →
          account.isAlive = false)
    (committed : Committed behaviour state state')
    (injective : state'.db.Injective) : Coherent state' := by
  have old : ∀ (addr : Address) (text : Bytes),
      state.trie.lookup addr.val = some text →
        ∃ fields : AccountFields, text = fields.encoding ∧
          StorageTrie state'.db fields.storageRoot ∧
          HasCode state'.db fields.codeHash := by
    intro addr text found
    obtain ⟨fields, same, storage, code⟩ := complete addr text found
    exact ⟨fields, same, (storage.grows committed.grows injective).1,
      code.grows committed.grows⟩
  refine ⟨committed.opened, ?_, ?_, ?_, ?_, ?_⟩
  · intro addr text found
    cases cached : state.cache.lookup addr with
    | none =>
        rw [committed.lookup cached] at found
        exact old addr text found
    | some account =>
        have outcome := committed.outcome injective addr account cached
        unfold Outcome at outcome
        split at outcome
        · rw [outcome] at found
          exact old addr text found
        · split at outcome
          · rw [outcome] at found
            cases found
          · obtain ⟨fields, present, written⟩ := outcome
            rw [present] at found
            exact ⟨fields, (Option.some.inj found).symm, written.storage,
              written.code⟩
  · intro addr member
    rw [committed.absent] at member
    obtain ⟨nothing, dead⟩ := absent addr member
    have missing : state.trie.lookup addr.val = none := by
      rcases complete.stored addr with ⟨missing, _⟩ |
        ⟨fields, _, present, _, _⟩
      · exact missing
      · rw [nothing] at present
        cases present
    have still : state'.trie.lookup addr.val = none := by
      cases cached : state.cache.lookup addr with
      | none => rw [committed.lookup cached, missing]
      | some account =>
          have outcome := committed.outcome injective addr account cached
          have gone : (swept behaviour account).isAlive = false := by
            unfold swept
            split
            · rfl
            · exact dead account cached
          unfold Outcome at outcome
          split at outcome
          · rw [outcome, missing]
          · exact outcome
    refine ⟨?_, ?_⟩
    · simp [State.stored, still]
    · intro account found
      rw [committed.cache] at found
      cases found
  · intro addr account found
    rw [committed.cache] at found
    cases found
  · intro addr
    rw [committed.cache, committed.changeLog]
    rfl
  · intro change member
    rw [committed.changeLog] at member
    cases member

theorem Coherent.committed (coherent : Coherent state)
    {behaviour : CommitBehaviour}
    (committed : Committed behaviour state state')
    (injective : state'.db.Injective) : Coherent state' :=
  committed.coherent coherent.complete coherent.absent injective

/-! ## The other calls -/

/-- What the invariant says of the account that `m_cache[addr]` denotes. -/
theorem Coherent.cacheAt (coherent : Coherent state) (addr : Address) :
    Usable state.db (state.cacheAt addr) ∧
      SoundLog state.db (state.stored addr) (entriesOf state.changeLog addr)
        (state.cacheAt addr) ∧
      ((state.cacheAt addr).isAlive = true →
        addr ∉ state.nonExistingAccountsCache) := by
  have sound := coherent.sound addr
  unfold State.cacheAt
  cases found : state.cache.lookup addr with
  | none =>
      rw [found] at sound
      have none : entriesOf state.changeLog addr = [] := sound
      rw [none]
      refine ⟨?_, sound_dead, fun alive => Bool.noConfusion alive⟩
      exact ⟨storageTrie_empty _, fun nonempty => absurd rfl nonempty,
        fun alive => Bool.noConfusion alive,
        fun alive => Bool.noConfusion alive⟩
  | some account =>
      rw [found] at sound
      refine ⟨coherent.usable addr account found, sound, ?_⟩
      intro alive member
      have dead := (coherent.absent addr member).2 account found
      rw [Option.getD_some, dead] at alive
      exact Bool.noConfusion alive

theorem slot_emptyTrie (db : OverlayDB) (key : U256) :
    db.slot emptyTrieRoot key = 0 := by
  simp [OverlayDB.slot, OverlayDB.openTrie, storageValue]

theorem Coherent.setStorage (coherent : Coherent state) (addr : Address)
    (key value : U256) :
    Coherent (final (State.setStorage addr key value) state) := by
  obtain ⟨middle, quiet, cached, last⟩ :=
    State.final_setStorage coherent addr key value
  obtain ⟨usable, sound, alive⟩ := (coherent.quiet quiet).cacheAt addr
  have same : State.storageSeen state.db key (state.seen addr) =
      (middle.cacheAt addr).value middle.db key := by
    rw [quiet.db, State.cacheAt]
    generalize state.seen addr = seen at cached
    generalize middle.cache.lookup addr = entry at cached
    cases cached with
    | none => exact (slot_emptyTrie state.db key).symm
    | some alike => exact alike.1.value key (by simp)
  rw [last, same]
  exact (coherent.quiet quiet).edit
    ⟨usable.storage, usable.code, usable.kept, usable.new⟩
    (sound.setStorage key value) alive (by simp)

theorem Coherent.setCode (coherent : Coherent state) {addr : Address}
    (dirty : ∀ account, state.seen addr = some account →
      account.isDirty = true) (code : Bytes) :
    Coherent (final (State.setCode addr code) state) := by
  obtain ⟨middle, quiet, cached, last⟩ :=
    State.final_setCode coherent addr code
  obtain ⟨usable, sound, alive⟩ := (coherent.quiet quiet).cacheAt addr
  have same : State.codeSeen state.db (state.seen addr) =
      (middle.cacheAt addr).codeOf middle.db ∧
        (middle.cacheAt addr).isUnchanged = false := by
    rw [quiet.db, State.cacheAt]
    generalize state.seen addr = seen at cached dirty
    generalize middle.cache.lookup addr = entry at cached
    cases cached with
    | none =>
        refine ⟨?_, rfl⟩
        simp [State.codeSeen, Account.codeOf, Account.dead]
    | some alike =>
        refine ⟨alike.1.code, ?_⟩
        have marked := dirty _ rfl
        rw [Account.isDirty, alike.2] at marked
        simpa using marked
  rw [last, same.1]
  exact (coherent.quiet quiet).edit (usable_setCode usable.storage code)
    (sound.setCode same.2 code usable.sha3_codeOf rfl) alive (by simp)

theorem final_clearStorage (state : State) (addr : Address) :
    final (State.clearStorage addr) state =
      if (state.cacheAt addr).storageRoot = emptyTrieRoot then
        state.edit addr (state.cacheAt addr) []
      else
        state.edit addr (state.cacheAt addr).clearStorage
          [.storageRoot (state.cacheAt addr).storageRoot] := by
  unfold State.cacheAt
  generalize denoted : (state.cache.lookup addr).getD .dead = account
  by_cases empty : account.storageRoot = emptyTrieRoot
  · simp [final, State.clearStorage, EStateM.run_bind, EStateM.run_get,
      State.cacheAt, denoted, empty, State.edit, State.store]
  · simp [final, State.clearStorage, EStateM.run_bind, EStateM.run_get,
      State.cacheAt, denoted, empty, State.edit, State.note, State.store,
      AList.insert_insert]

theorem Coherent.clearStorage (coherent : Coherent state) (addr : Address) :
    Coherent (final (State.clearStorage addr) state) := by
  obtain ⟨usable, sound, alive⟩ := coherent.cacheAt addr
  rw [final_clearStorage]
  split
  · exact coherent.edit usable sound alive (by simp)
  · refine coherent.edit ?_ sound.clearStorage alive ?_
    · exact ⟨storageTrie_empty _, usable.code, usable.kept, usable.new⟩
    · intro root member
      obtain rfl : root = _ := by simpa using member
      exact usable.storage

theorem Coherent.kill (coherent : Coherent state) (addr : Address) :
    Coherent (final (State.kill addr) state) := by
  obtain ⟨middle, ran, quiet, cached⟩ := State.run_account coherent addr
  have coherent' := coherent.quiet quiet
  cases seen : state.seen addr with
  | none =>
      have last : final (State.kill addr) state = middle := by
        rw [seen] at ran
        simp [final, State.kill, EStateM.run_bind, ran]
      rw [last]
      exact coherent'
  | some account =>
      have last : final (State.kill addr) state =
          middle.edit addr account.kill [] := by
        rw [seen] at ran
        simp [final, State.kill, EStateM.run_bind, ran, State.edit,
          State.store]
      have sound := coherent'.sound addr
      rw [cached, seen] at sound
      rw [last]
      exact coherent'.edit (usable_kill account) (SoundLog.kill sound)
        (fun alive => Bool.noConfusion alive) (by simp)

theorem quiet_query (coherent : Coherent state) (query : Query) :
    Quiet state (final query.run state) := by
  have discarded : ∀ {α : Type} {read : StateM α} {value : α}
      {state' : State}, read.run state = .ok value state' →
      Quiet state state' →
      Quiet state (final (do let _ ← read : StateM Unit) state) := by
    intro α read value state' ran quiet
    have last : final (do let _ ← read : StateM Unit) state = state' := by
      simp [final, EStateM.run_bind, ran]
    rw [last]
    exact quiet
  cases query with
  | balance addr =>
      obtain ⟨_, ran, quiet⟩ := State.run_balance coherent addr
      exact discarded ran quiet
  | getNonce addr =>
      obtain ⟨_, ran, quiet⟩ := State.run_getNonce coherent addr
      exact discarded ran quiet
  | storage addr key =>
      obtain ⟨_, ran, quiet, _⟩ := State.run_storage coherent addr key
      exact discarded ran quiet
  | code addr =>
      obtain ⟨_, ran, quiet, _⟩ := State.run_code coherent addr
      exact discarded ran quiet
  | codeHash addr =>
      obtain ⟨_, ran, quiet⟩ := State.run_codeHash coherent addr
      exact discarded ran quiet
  | addressInUse addr =>
      obtain ⟨_, ran, quiet⟩ := State.run_addressInUse coherent addr
      exact discarded ran quiet
  | accountNonemptyAndExisting addr =>
      obtain ⟨_, ran, quiet⟩ :=
        State.run_accountNonemptyAndExisting coherent addr
      exact discarded ran quiet
  | addressHasCode addr =>
      obtain ⟨_, ran, quiet⟩ := State.run_addressHasCode coherent addr
      exact discarded ran quiet

theorem Coherent.rollback (coherent : Coherent state) {savepoint : Nat}
    (within : savepoint ≤ state.savepoint)
    (lives : ∀ addr account, ⟨addr, .touch⟩ ∈
        state.changeLog.take (state.savepoint - savepoint) →
      state.cache.lookup addr = some account → account.isAlive = true) :
    Coherent (final (State.rollback savepoint) state) := by
  obtain ⟨undone, kept, split, length, _, done⟩ :=
    State.final_rollback within
  have taken : state.changeLog.take (state.savepoint - savepoint) =
      undone := by
    have count : state.savepoint - savepoint = undone.length := by
      simp only [State.savepoint, split, List.length_append]
      omega
    rw [count, split, List.take_left]
  rw [taken] at lives
  exact coherent.rolledBack split (fun addr touch account found =>
    lives addr account touch found) done

/-- One careful call keeps the invariant. -/
theorem Coherent.call (coherent : Coherent state) {call : Call}
    (careful : Careful state call) (collisionless : Collisionless state call) :
    Coherent (final call.run state) := by
  cases call with
  | read query => exact coherent.quiet (quiet_query coherent query)
  | addBalance addr amount =>
      exact coherent.step (State.step_addBalance coherent addr amount)
  | subBalance addr value =>
      exact coherent.step (State.step_subBalance coherent addr value)
  | transferBalance sender recipient value =>
      exact coherent.steps
        (State.steps_transferBalance coherent sender recipient value)
  | setBalance addr value =>
      exact coherent.step (State.step_setBalance coherent addr value)
  | incNonce addr => exact coherent.step (State.step_incNonce coherent addr)
  | setNonce addr newNonce =>
      exact coherent.step (State.step_setNonce coherent addr newNonce)
  | setStorage addr key value => exact coherent.setStorage addr key value
  | clearStorage addr => exact coherent.clearStorage addr
  | setCode addr code => exact coherent.setCode careful code
  | kill addr => exact coherent.kill addr
  | rollback savepoint => exact coherent.rollback careful.1 careful.2
  | commit behaviour =>
      obtain ⟨state', ran, committed⟩ := run_commit coherent behaviour
      have last : final (Call.commit behaviour).run state = state' := by
        simp [final, Call.run, ran]
      unfold Collisionless at collisionless
      rw [last] at collisionless ⊢
      exact coherent.committed committed collisionless

/-- Every careful run keeps the invariant. -/
theorem Coherent.after (coherent : Coherent state) {calls : List Call}
    (careful : Along Careful state calls)
    (collisionless : Along Collisionless state calls) :
    Coherent (after calls state) := by
  induction calls generalizing state with
  | nil => exact coherent
  | cons call calls induction =>
      exact induction (coherent.call careful.1 collisionless.1) careful.2
        collisionless.2

end

end Aecmio
