import Aecmio.State.Calls

/-!
# What a rollback restores

Every answer that the state gives after a rollback is the one it gave at the
savepoint, for the calls that record what they change.  `clearStorage` is the
one that does not record all of it: the slots that were written but not
committed are dropped and stay lost.
-/

namespace Aecmio

open Traced

section

variable [Hashing]

/-- What the reads of one address return. -/
structure Answers where
  balance : Except StateError U256
  nonce : Except StateError U256
  storage : Except StateError U256
  code : Except StateError Bytes
  codeHash : Except StateError H256
  inUse : Except StateError Bool
  nonemptyAndExisting : Except StateError Bool
deriving DecidableEq

/-- The answers for an address and a storage key. -/
def State.answers (state : State) (addr : Address) (key : U256) : Answers where
  balance := reading (balance addr) state
  nonce := reading (getNonce addr) state
  storage := reading (storage addr key) state
  code := reading (code addr) state
  codeHash := reading (codeHash addr) state
  inUse := reading (addressInUse addr) state
  nonemptyAndExisting := reading (accountNonemptyAndExisting addr) state

variable {state state' start : State} {calls : List Call}

omit [Hashing] in
theorem State.reading_of_run {α : Type} {read : StateM α} {value : α}
    (ran : read.run state = .ok value state') :
    reading read state = .ok value := by
  simp [reading, ran]

/-- The answers are determined by the account that is seen. -/
theorem Coherent.answers (coherent : Coherent state) (addr : Address)
    (key : U256) :
    state.answers addr key =
      { balance := .ok (State.balanceSeen (state.seen addr))
        nonce := .ok
          (State.nonceSeen state.accountStartNonce (state.seen addr))
        storage := .ok (State.storageSeen state.db key (state.seen addr))
        code := .ok (State.codeSeen state.db (state.seen addr))
        codeHash := .ok (State.codeHashSeen (state.seen addr))
        inUse := .ok (state.seen addr).isSome
        nonemptyAndExisting := .ok
          (State.nonemptySeen (state.seen addr)) } := by
  obtain ⟨_, balance, _⟩ := State.run_balance coherent addr
  obtain ⟨_, nonce, _⟩ := State.run_getNonce coherent addr
  obtain ⟨_, storage, _⟩ := State.run_storage coherent addr key
  obtain ⟨_, code, _⟩ := State.run_code coherent addr
  obtain ⟨_, codeHash, _⟩ := State.run_codeHash coherent addr
  obtain ⟨_, inUse, _⟩ := State.run_addressInUse coherent addr
  obtain ⟨_, nonempty, _⟩ :=
    State.run_accountNonemptyAndExisting coherent addr
  simp only [State.answers, State.reading_of_run balance,
    State.reading_of_run nonce, State.reading_of_run storage,
    State.reading_of_run code, State.reading_of_run codeHash,
    State.reading_of_run inUse, State.reading_of_run nonempty]

/-- Two accounts over two databases that answer alike. -/
structure Account.AnswerAlike (db db' : OverlayDB)
    (account account' : Account) : Prop where
  nonce : account.nonce = account'.nonce
  balance : account.balance = account'.balance
  codeHash : account.codeHash = account'.codeHash
  code : account.codeOf db = account'.codeOf db'
  value : ∀ key, account.value db key = account'.value db' key

/-- States that show accounts answering alike give the same answers. -/
theorem answers_eq (coherent : Coherent state) (coherent' : Coherent state')
    (startNonce : state'.accountStartNonce = state.accountStartNonce)
    {addr : Address}
    (alike : Option.Rel (Account.AnswerAlike state.db state'.db)
      (state.seen addr) (state'.seen addr))
    (key : U256) : state'.answers addr key = state.answers addr key := by
  rw [coherent.answers, coherent'.answers, startNonce]
  generalize state.seen addr = seen at alike
  generalize state'.seen addr = seen' at alike
  cases alike with
  | none => rfl
  | some alike =>
      simp only [State.balanceSeen, State.nonceSeen, State.storageSeen,
        State.codeSeen, State.codeHashSeen, State.nonemptySeen,
        Account.isEmpty, alike.balance, alike.nonce, alike.code,
        alike.codeHash, alike.value key, Option.isSome_some]

/-- The calls between a savepoint and its rollback: storage and code are set
on accounts in use, code on dirty ones only, and rollbacks go to savepoints
taken since. -/
def Journalled (savepoint : Nat) (state : State) : Call → Prop
  | .setStorage addr _ _ =>
      State.reading (State.addressInUse addr) state = .ok true
  | .setCode addr _ => ∃ account,
      state.cache.lookup addr = some account ∧ account.isDirty = true
  | .rollback later => savepoint ≤ later ∧ later ≤ state.savepoint
  | .clearStorage _ => False
  | .kill _ => False
  | .commit _ => False
  | _ => True

/-- A journalled call that is no rollback is a sequence of steps. -/
theorem steps_journalled (coherent : Coherent state) {call : Call}
    {savepoint : Nat} (journalled : Journalled savepoint state call)
    (forward : ∀ later, call ≠ .rollback later) :
    Steps state (final call.run state) := by
  have ofStep : ∀ {addr : Address} {last : State}, Step addr state last →
      Steps state last := by
    intro addr last step
    exact .single ⟨addr, step⟩
  cases call with
  | read query =>
      exact .single ⟨zeroAddress, .quiet (quiet_query coherent query)⟩
  | addBalance addr amount =>
      exact ofStep (State.step_addBalance coherent addr amount)
  | subBalance addr value =>
      exact ofStep (State.step_subBalance coherent addr value)
  | transferBalance sender recipient value =>
      exact State.steps_transferBalance coherent sender recipient value
  | setBalance addr value =>
      exact ofStep (State.step_setBalance coherent addr value)
  | incNonce addr => exact ofStep (State.step_incNonce coherent addr)
  | setNonce addr newNonce =>
      exact ofStep (State.step_setNonce coherent addr newNonce)
  | setStorage addr key value =>
      obtain ⟨_, ran, _⟩ := State.run_addressInUse coherent addr
      have inUse : (state.seen addr).isSome = true := by
        have answer := (State.reading_of_run ran).symm.trans journalled
        exact Except.ok.inj answer
      exact ofStep (State.step_setStorage coherent inUse key value)
  | setCode addr code =>
      obtain ⟨account, found, dirty⟩ := journalled
      have seen : state.seen addr = some account := by
        simp [State.seen, found]
      have marked : account.isUnchanged = false := by
        simpa [Account.isDirty] using dirty
      exact ofStep (State.step_setCode coherent seen marked code)
  | rollback later => exact absurd rfl (forward later)
  | clearStorage addr => exact journalled.elim
  | kill addr => exact journalled.elim
  | commit behaviour => exact journalled.elim

/-- A journalled call keeps the way back to the savepoint. -/
theorem Returns.call {new : List Change} (returns : Returns start new state)
    (coherent : Coherent state) {call : Call}
    (journalled : Journalled start.savepoint state call) :
    Coherent (final call.run state) ∧
      ∃ new', Returns start new' (final call.run state) := by
  by_cases forward : ∀ later, call ≠ .rollback later
  · have steps := steps_journalled coherent journalled forward
    exact ⟨coherent.steps steps, returns.steps coherent steps⟩
  · push Not at forward
    obtain ⟨savepoint, rfl⟩ := forward
    obtain ⟨coherent', kept, _, returns'⟩ :=
      returns.rollback coherent journalled.1 journalled.2
    exact ⟨coherent', kept, returns'⟩

theorem Returns.after {new : List Change} (returns : Returns start new state)
    (coherent : Coherent state)
    (journalled : Along (Journalled start.savepoint) state calls) :
    Coherent (after calls state) ∧
      ∃ new', Returns start new' (after calls state) := by
  induction calls generalizing state new with
  | nil => exact ⟨coherent, new, returns⟩
  | cons call calls induction =>
      obtain ⟨coherent', new', returns'⟩ := returns.call coherent journalled.1
      exact induction returns' coherent' journalled.2

end

/-! ## A sample

A database with one empty account that has one storage slot, under the hashes
of Keccak-256. -/

def sampleAddress : Address := ⟨List.replicate 19 0 ++ [1], by decide⟩

def sampleEmptyHash : H256 := hashOfNat
  0xc5d2460186f7233c927e7db2dcc703c0e500b653ca82273b7bfad8045d85a470

/-- The hash of a code of one zero byte. -/
def sampleCodeHash : H256 := hashOfNat
  0xbc36789e7a1e281436464229828f817d6612f7b477d66591ff96a9e064bcc98a

def sampleSlotsRoot : H256 := hashOfNat
  0x507dc864c12c35fa19f6a8c824601ce2f1bedd1fdf454c2df2f2a7ce411a6d6f

def sampleSlots : Contents :=
  Finmap.singleton (storageKey 1) (storageEncoding 5)

def sampleNewSlotsRoot : H256 := hashOfNat
  0x9dea6c443672bbde90c4d665d4c62b3d6dbdbb1ef990559ebefacd0e369933e0

/-- The slots after a write to another key. -/
def sampleNewSlots : Contents :=
  Finmap.insert (storageKey 2) (storageEncoding 7) sampleSlots

def sampleTrie : Contents :=
  Finmap.singleton sampleAddress.val
    (AccountFields.encoding ⟨0, 0, sampleSlotsRoot, sampleEmptyHash⟩)

/-- The state trie when the account also has a balance and a code. -/
def sampleNewTrie : Contents :=
  Finmap.singleton sampleAddress.val
    (AccountFields.encoding ⟨0, 5, sampleNewSlotsRoot, sampleCodeHash⟩)

/-- The hashes of the texts and of the tries of the sample. -/
@[reducible]
def sampleHashing : Hashing where
  sha3 text := if text = [] then sampleEmptyHash else sampleCodeHash
  trieRoot contents :=
    if contents = ∅ then hashOfNat
      0x56e81f171bcc55a6ff8345e692c0f86e5b48e01b996cadc001622fb5e363b421
    else if contents = sampleSlots then sampleSlotsRoot
    else if contents = sampleNewSlots then sampleNewSlotsRoot
    else if contents = sampleTrie then hashOfNat
      0x2937ab161455ad8d64999beb38736d00758b6214b0babced46a05e6d5439d3a5
    else if contents = sampleNewTrie then hashOfNat
      0x1101ce5f6f9b252a7e2962130aa9fdbd4d7ed6e0bd2ec6c5bc534028a2fdc8d0
    else hashOfNat 0

/-- The state opened at the root of the sample. -/
def sampleState : State where
  db := { tries := [sampleTrie, sampleSlots] }
  trie := sampleTrie
  accountStartNonce := 0
  randomness _ := 0

section Sample

attribute [local instance] sampleHashing

theorem sampleState_opened : Opened sampleState := by
  refine ⟨by decide +kernel, ?_, rfl, rfl, rfl⟩
  intro addr text found
  have here : addr.val = sampleAddress.val := by
    by_contra different
    have missing : sampleState.trie.lookup addr.val = none :=
      Finmap.lookup_eq_none.mpr (by
        simpa [sampleState, sampleTrie] using different)
    rw [missing] at found
    cases found
  rw [here] at found
  refine ⟨⟨0, 0, sampleSlotsRoot, sampleEmptyHash⟩, ?_, ?_, .inl rfl⟩
  · exact (Option.some.inj (Finmap.lookup_singleton_eq.symm.trans found)).symm
  · refine ⟨sampleSlots, by decide +kernel, ?_⟩
    intro key value stored
    by_cases first : storageKey key = storageKey 1
    · rw [first] at stored
      refine ⟨5, by decide, ?_⟩
      exact (Option.some.inj
        (Finmap.lookup_singleton_eq.symm.trans stored)).symm
    · have missing : sampleSlots.lookup (storageKey key) = none :=
        Finmap.lookup_eq_none.mpr (by simpa [sampleSlots] using first)
      rw [missing] at stored
      cases stored

end Sample

/-! ## Clearing the storage -/

section

variable [Hashing] {state : State}

/-- Writes to slots of one account. -/
def slotWrites (addr : Address) (slots : List (U256 × U256)) : List Call :=
  slots.map fun slot => .setStorage addr slot.1 slot.2

/-- Undoing the writes to slots of a cached account leads back to an account
like it. -/
theorem after_slotWrites (coherent : Coherent state) {addr : Address}
    {account : Account} (found : state.cache.lookup addr = some account)
    (slots : List (U256 × U256)) :
    ∃ kinds account' undone,
      Coherent (after (slotWrites addr slots) state) ∧
      (after (slotWrites addr slots) state).db = state.db ∧
      (after (slotWrites addr slots) state).changeLog =
        kinds.map (Change.mk addr) ++ state.changeLog ∧
      .touch ∉ kinds ∧
      (after (slotWrites addr slots) state).cache.lookup addr =
        some account' ∧
      ChangeKind.undoAll kinds (some account') = some undone ∧
      account.Alike state.db undone := by
  induction slots generalizing state account with
  | nil =>
      exact ⟨[], account, account, coherent, rfl, rfl, by simp, found, rfl,
        .refl account⟩
  | cons slot slots induction =>
      obtain ⟨middle, quiet, cached, last⟩ :=
        State.final_setStorage coherent addr slot.1 slot.2
      have seen : state.seen addr = some account := by
        simp [State.seen, found]
      rw [seen] at cached last
      generalize loaded : middle.cache.lookup addr = entry at cached
      cases cached with
      | @some _ read alike =>
          have denoted : middle.cacheAt addr = read := by
            simp [State.cacheAt, loaded]
          rw [denoted] at last
          have next : (final (State.setStorage addr slot.1 slot.2)
              state).cache.lookup addr =
                some (read.setStorage slot.1 slot.2) := by
            rw [last, State.lookup_edit, if_pos rfl]
          obtain ⟨kinds, account', undone, coherent', db, log, touches, found',
            ran, like⟩ :=
            induction (coherent.setStorage addr slot.1 slot.2) next
          have database : (final (State.setStorage addr slot.1 slot.2)
              state).db = state.db := by
            rw [last]
            exact quiet.db
          have oldLog : (final (State.setStorage addr slot.1 slot.2)
              state).changeLog =
                ⟨addr, .storage slot.1 (account.value state.db slot.1)⟩ ::
                  state.changeLog := by
            rw [last]
            simp [State.edit, quiet.changeLog, State.storageSeen]
          refine ⟨kinds ++ [.storage slot.1 (account.value state.db slot.1)],
            account', undone.setStorage slot.1 (account.value state.db slot.1),
            coherent', db.trans database, ?_, ?_, found', ?_, ?_⟩
          · rw [oldLog] at log
            refine log.trans ?_
            simp
          · simpa using touches
          · rw [ChangeKind.undoAll_append, ran]
            rfl
          · rw [database] at like
            refine ⟨alike.1.isAlive.trans like.isAlive,
              alike.1.nonce.trans like.nonce,
              alike.1.balance.trans like.balance,
              alike.1.codeHash.trans like.codeHash,
              alike.1.code.trans like.code,
              alike.1.storageRoot.trans like.storageRoot, ?_⟩
            intro key _
            rw [Account.value_setStorage]
            by_cases same : key = slot.1
            · rw [if_pos same, same]
            · rw [if_neg same, ← like.value key (by simp),
                Account.value_setStorage, if_neg same]
              exact alike.1.value key (by simp)

/-- No slot of the account has a value that is not in its storage trie.  An
account that is not in the cache must have no storage at all. -/
def StorageCommitted (state : State) (addr : Address) : Prop :=
  match state.cache.lookup addr with
  | some account => account.storageRoot = emptyTrieRoot ∨
      ∀ key, account.value state.db key = state.db.slot account.storageRoot key
  | none => ∀ account, state.stored addr = some account →
      ∀ key, state.db.slot account.storageRoot key = 0

/-- The slots after `clearStorage`, some writes and the rollback. -/
theorem storage_clearStorage_rollback (coherent : Coherent state)
    (addr : Address) (later : List (U256 × U256)) (key : U256) :
    State.reading (State.storage addr key)
        (final (State.rollback state.savepoint)
          (after (.clearStorage addr :: slotWrites addr later) state)) =
      .ok (if (state.cacheAt addr).storageRoot = emptyTrieRoot then
          (state.cacheAt addr).value state.db key
        else state.db.slot (state.cacheAt addr).storageRoot key) := by
  -- The account and the entries that `clearStorage` leaves.
  obtain ⟨account, cleared, last, touches, value⟩ :
      ∃ (account : Account) (cleared : List ChangeKind),
      final (State.clearStorage addr) state =
        state.edit addr account cleared ∧ .touch ∉ cleared ∧
      ∀ undone, account.Alike state.db undone →
        ∃ restored, ChangeKind.undoAll cleared (some undone) =
            some restored ∧
          restored.value state.db key =
            if (state.cacheAt addr).storageRoot = emptyTrieRoot then
              (state.cacheAt addr).value state.db key
            else state.db.slot (state.cacheAt addr).storageRoot key := by
    have last := final_clearStorage state addr
    by_cases empty : (state.cacheAt addr).storageRoot = emptyTrieRoot
    · rw [if_pos empty] at last
      refine ⟨_, _, last, by simp, ?_⟩
      intro undone alike
      refine ⟨undone, rfl, ?_⟩
      rw [if_pos empty, alike.value key (by simp)]
    · rw [if_neg empty] at last
      refine ⟨_, _, last, by simp, ?_⟩
      intro undone _
      refine ⟨_, rfl, ?_⟩
      rw [if_neg empty]
      exact Account.value_cleared undone _ key
  have clear : Coherent (state.edit addr account cleared) := by
    rw [← last]
    exact coherent.clearStorage addr
  have found : (state.edit addr account cleared).cache.lookup addr =
      some account := by
    rw [State.lookup_edit, if_pos rfl]
  obtain ⟨kinds, account', undone, written, db, log, plain, found', ran,
    alike⟩ := after_slotWrites clear found later
  have run : after (.clearStorage addr :: slotWrites addr later) state =
      after (slotWrites addr later) (state.edit addr account cleared) := by
    rw [← last]
    rfl
  rw [run]
  generalize after (slotWrites addr later) (state.edit addr account cleared) =
    reached at written db log found' ⊢
  have whole : reached.changeLog =
      ((kinds ++ cleared).map (Change.mk addr)) ++ state.changeLog := by
    rw [log]
    simp [State.edit]
  have within : state.savepoint ≤ reached.savepoint := by
    simp only [State.savepoint, whole, List.length_append]
    omega
  obtain ⟨gone, kept, split, length, _, done⟩ := State.final_rollback within
  obtain ⟨same, rest⟩ := List.append_inj' (whole.symm.trans split) (by
    rw [length]
    rfl)
  have lives : ∀ other, ⟨other, .touch⟩ ∈ gone →
      ∀ account, reached.cache.lookup other = some account →
        account.isAlive = true := by
    intro other touch
    rw [← same] at touch
    obtain ⟨kind, member, equal⟩ := List.mem_map.mp touch
    obtain ⟨_, rfl⟩ := Change.mk.inj equal
    rcases List.mem_append.mp member with first | second
    · exact absurd first plain
    · exact absurd second touches
  have restored := written.rolledBack split lives done
  obtain ⟨final', undid, value⟩ := value undone alike
  have cached : (final (State.rollback state.savepoint)
      reached).cache.lookup addr = some final' := by
    rw [done.cache, ← same, entriesOf_map, if_pos rfl, found',
      ChangeKind.undoAll_append, ran, undid]
  obtain ⟨_, answer, _⟩ := State.run_storage restored addr key
  rw [State.reading_of_run answer, done.db, db]
  simp only [State.seen, cached, Option.some_or, State.storageSeen]
  exact congrArg Except.ok value

/-- A rollback restores the storage that `clearStorage` dropped if and only
if all of it was committed. -/
theorem clearStorage_rollback_iff (opening : State) (opened : Opened opening)
    (history : List Call) (careful : Along Careful opening history)
    (collisionless : Along Collisionless opening history) (addr : Address)
    (inUse : State.reading (State.addressInUse addr)
      (after history opening) = .ok true)
    (later : List (U256 × U256)) :
    (∀ key, State.reading (State.storage addr key)
        (final (State.rollback (after history opening).savepoint)
          (after (.clearStorage addr :: slotWrites addr later)
            (after history opening))) =
      State.reading (State.storage addr key) (after history opening)) ↔
      StorageCommitted (after history opening) addr := by
  have coherent : Coherent (after history opening) :=
    opened.coherent.after careful collisionless
  generalize after history opening = state at coherent inUse ⊢
  have before : ∀ key, State.reading (State.storage addr key) state =
      .ok (State.storageSeen state.db key (state.seen addr)) := by
    intro key
    obtain ⟨_, answer, _⟩ := State.run_storage coherent addr key
    exact State.reading_of_run answer
  have afterwards := storage_clearStorage_rollback coherent addr later
  have values : ∀ first second : U256, (Except.ok first =
      (Except.ok second : Except StateError U256)) ↔ first = second := by
    intro first second
    exact ⟨Except.ok.inj, congrArg _⟩
  simp only [before, afterwards, values]
  unfold StorageCommitted
  cases cached : state.cache.lookup addr with
  | some account =>
      have denoted : state.cacheAt addr = account := by
        simp [State.cacheAt, cached]
      have seen : state.seen addr = some account := by
        simp [State.seen, cached]
      rw [denoted, seen]
      by_cases empty : account.storageRoot = emptyTrieRoot
      · simp [empty, State.storageSeen]
      · simp only [if_neg empty, State.storageSeen, empty, false_or]
        exact ⟨fun same key => (same key).symm, fun same key =>
          (same key).symm⟩
  | none =>
      have denoted : state.cacheAt addr = .dead := by
        simp [State.cacheAt, cached]
      have seen : state.seen addr = state.stored addr := by
        simp [State.seen, cached]
      obtain ⟨_, ran, _⟩ := State.run_addressInUse coherent addr
      have isSome : (state.seen addr).isSome = true :=
        Except.ok.inj ((State.reading_of_run ran).symm.trans inUse)
      rw [seen] at isSome
      obtain ⟨account, stored⟩ := Option.isSome_iff_exists.mp isSome
      have overlay := (State.stored_overlay stored).1
      have value : ∀ key, account.value state.db key =
          state.db.slot account.storageRoot key := by
        intro key
        simp [Account.value, overlay]
      have zero : ∀ key, Account.dead.value state.db key = 0 := by
        intro key
        simp [Account.value, Account.dead, slot_emptyTrie]
      rw [denoted, seen, stored]
      simp only [Account.dead, if_true, State.storageSeen, value,
        Option.some.injEq, forall_eq']
      constructor
      · intro same key
        rw [← same key]
        exact zero key
      · intro none key
        rw [none key]
        exact zero key

end

section Sample

attribute [local instance] sampleHashing

/-- The account is in the cache and all of its storage is in the trie. -/
theorem clearStorage_rollback_sample :
    let loaded := after [.read (.balance sampleAddress)] sampleState
    ∀ key, State.reading (State.storage sampleAddress key)
        (final (State.rollback loaded.savepoint)
          (after (.clearStorage sampleAddress ::
            slotWrites sampleAddress [(1, 3), (2, 7)]) loaded)) =
      State.reading (State.storage sampleAddress key) loaded := by
  refine (clearStorage_rollback_iff sampleState sampleState_opened
    [.read (.balance sampleAddress)] ⟨trivial, trivial⟩ ⟨?_, trivial⟩
    sampleAddress (by decide +kernel) [(1, 3), (2, 7)]).mpr ?_
  · exact ⟨by decide +kernel, by decide +kernel⟩
  · exact .inr fun key => rfl

/-- A slot written before the savepoint is lost. -/
theorem clearStorage_rollback_lost :
    let written := after [.setStorage sampleAddress 2 7] sampleState
    State.reading (State.storage sampleAddress 2) written = .ok 7 ∧
      State.reading (State.storage sampleAddress 2)
        (final (State.rollback written.savepoint)
          (after [.clearStorage sampleAddress] written)) = .ok 0 := by
  decide +kernel

end Sample

end Aecmio
