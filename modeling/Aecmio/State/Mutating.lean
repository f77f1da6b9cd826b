import Aecmio.State.Reading

/-!
# What mutators do

A mutator is a read followed by a change of one account in the cache, with
the entries of the change log that undo it.  `Edit` lists the changes,
`Step` what can happen to the state, and every mutator is a sequence of
steps.
-/

namespace Aecmio

open Relation

variable [Hashing]

/-! ## Changes of one account -/

/-- The entry that `addBalance` leaves for the amount. -/
def balanceKinds (amount : U256) : List ChangeKind :=
  if amount ≠ 0 then [.balance amount] else []

/-- The entry for an empty account being touched for the first time. -/
def touchKinds (account : Account) : List ChangeKind :=
  if !account.isDirty && account.isEmpty then [.touch] else []

/-- The account before and after a change, and the entries that undo it. -/
inductive Edit (db : OverlayDB) : Account → Account → List ChangeKind → Prop
  | addBalance (account : Account) (amount : U256) :
      Edit db account (account.addBalance amount)
        (balanceKinds amount ++ touchKinds account)
  | setNonce (account : Account) (nonce : U256) :
      Edit db account (account.setNonce nonce) [.nonce account.nonce]
  | setStorage (account : Account) (key value : U256) :
      Edit db account (account.setStorage key value)
        [.storage key (account.value db key)]
  | setCode (account : Account) (code : Bytes)
      (dirty : account.isUnchanged = false) :
      Edit db account (account.setCode code) [.code (account.codeOf db)]

section

variable {db : OverlayDB} {stored : Option Account}
  {kinds : List ChangeKind} {account account' : Account}
  {before : List ChangeKind}

theorem Edit.sound (edit : Edit db account account' kinds)
    (usable : Usable db account)
    (loaded : ∀ original, stored = some original →
      original.storageOverlay = ∅)
    (sound : SoundLog db stored before account) :
    SoundLog db stored (kinds ++ before) account' := by
  cases edit with
  | addBalance amount =>
      have touched : SoundLog db stored (touchKinds account ++ before)
          account.changed := by
        unfold touchKinds
        split
        · rename_i first
          have clean : account.isUnchanged = true := by
            simp [Account.isDirty] at first
            exact first.1
          exact sound.touch clean loaded
        · exact sound.changed
      by_cases zero : amount = 0
      · subst zero
        have same : account.addBalance 0 = account.changed := by
          simp [Account.addBalance, Account.changed]
        rw [same]
        simpa [balanceKinds] using touched
      · have noted : balanceKinds amount = [.balance amount] := if_pos zero
        rw [noted]
        exact touched.addBalance amount
  | setNonce nonce => exact sound.setNonce nonce
  | setStorage key value => exact sound.setStorage key value
  | setCode code dirty =>
      exact sound.setCode dirty code usable.sha3_codeOf rfl

theorem usable_setCode (storage : StorageTrie db account.storageRoot)
    (code : Bytes) : Usable db (account.setCode code) where
  storage := storage
  code nonempty := by
    split
    · rename_i empty
      have none : code = [] := by simpa [Account.setCode] using empty
      subst none
      exact absurd rfl nonempty
    · rfl
  kept _ old := Bool.noConfusion old
  new _ _ := rfl

theorem Edit.usable (edit : Edit db account account' kinds)
    (usable : Usable db account) : Usable db account' := by
  cases edit with
  | addBalance amount =>
      exact ⟨usable.storage, usable.code, usable.kept, usable.new⟩
  | setNonce nonce =>
      exact ⟨usable.storage, usable.code, usable.kept, usable.new⟩
  | setStorage key value =>
      exact ⟨usable.storage, usable.code, usable.kept, usable.new⟩
  | setCode code dirty => exact usable_setCode usable.storage code

theorem Edit.storageRoot_notMem (edit : Edit db account account' kinds)
    (root : H256) : .storageRoot root ∉ kinds := by
  cases edit with
  | addBalance amount =>
      unfold balanceKinds touchKinds
      split <;> split <;> simp
  | setNonce nonce => simp
  | setStorage key value => simp
  | setCode code dirty => simp

theorem Edit.isAlive (edit : Edit db account account' kinds) :
    account'.isAlive = account.isAlive := by
  cases edit <;> rfl

end

/-! ## Steps of the state -/

namespace State

/-- A change of one account with its entries, newest first. -/
def edit (state : State) (addr : Address) (account : Account)
    (kinds : List ChangeKind) : State :=
  { state.store addr account with
    changeLog := kinds.map (Change.mk addr) ++ state.changeLog }

/-- A new account with its entries. -/
def create (state : State) (addr : Address) (account : Account)
    (kinds : List ChangeKind) : State :=
  { state.edit addr account kinds with
    nonExistingAccountsCache :=
      state.nonExistingAccountsCache.filter (· ≠ addr) }

end State

/-- What a journalled mutator can do to the account of one address. -/
inductive Step (addr : Address) (state : State) : State → Prop
  | quiet {state' : State} (quiet : Quiet state state') :
      Step addr state state'
  | edited {middle : State} {account account' : Account}
      {kinds : List ChangeKind} (quiet : Quiet state middle)
      (found : middle.cache.lookup addr = some account)
      (edit : Edit middle.db account account' kinds) :
      Step addr state (middle.edit addr account' kinds)
  | created {middle : State} (nonce balance : U256)
      (quiet : Quiet state middle)
      (missing : middle.cache.lookup addr = none)
      (absent : middle.stored addr = none) :
      Step addr state (middle.create addr (.created nonce balance)
        (balanceKinds balance ++ [.create]))

abbrev Steps : State → State → Prop :=
  ReflTransGen fun state state' => ∃ addr, Step addr state state'

section

variable {state state' : State} {addr other : Address} {account : Account}
  {kinds : List ChangeKind}

omit [Hashing] in
theorem entriesOf_append (first second : List Change) (addr : Address) :
    entriesOf (first ++ second) addr =
      entriesOf first addr ++ entriesOf second addr := by
  simp [entriesOf]

omit [Hashing] in
theorem entriesOf_map (kinds : List ChangeKind) (addr other : Address) :
    entriesOf (kinds.map (Change.mk addr)) other =
      if addr = other then kinds else [] := by
  by_cases same : addr = other
  · simp [entriesOf, same]
  · simp [entriesOf, same]

omit [Hashing] in
theorem State.entriesOf_edit (state : State) (account : Account)
    (kinds : List ChangeKind) (addr other : Address) :
    entriesOf (state.edit addr account kinds).changeLog other =
      (if addr = other then kinds else []) ++
        entriesOf state.changeLog other := by
  simp [edit, entriesOf_append, entriesOf_map]

omit [Hashing] in
theorem State.lookup_edit (state : State) (account : Account)
    (kinds : List ChangeKind) (addr other : Address) :
    (state.edit addr account kinds).cache.lookup other =
      if addr = other then some account else state.cache.lookup other := by
  by_cases same : addr = other
  · subst same
    simp [edit, store]
  · have different : other ≠ addr := fun equal => same equal.symm
    simp [edit, store, same, different]

/-- A change of one account keeps the invariant when it keeps what it says
of that account. -/
theorem Coherent.edit (coherent : Coherent state)
    (usable : Usable state.db account)
    (sound : SoundLog state.db (state.stored addr)
      (kinds ++ entriesOf state.changeLog addr) account)
    (alive : account.isAlive = true →
      addr ∉ state.nonExistingAccountsCache)
    (roots : ∀ root, .storageRoot root ∈ kinds →
      StorageTrie state.db root) :
    Coherent (state.edit addr account kinds) := by
  refine ⟨coherent.opened, coherent.complete, ?_, ?_, ?_, ?_⟩
  · intro other member
    refine ⟨(coherent.absent other member).1, ?_⟩
    intro found cached
    rw [State.lookup_edit] at cached
    split at cached
    · rename_i same
      obtain rfl := Option.some.inj cached
      subst same
      by_contra lives
      exact alive (by simpa using lives) member
    · exact (coherent.absent other member).2 found cached
  · intro other found cached
    rw [State.lookup_edit] at cached
    split at cached
    · obtain rfl := Option.some.inj cached
      exact usable
    · exact coherent.usable other found cached
  · intro other
    rw [State.lookup_edit, State.entriesOf_edit]
    by_cases same : addr = other
    · subst same
      rw [if_pos rfl, if_pos rfl]
      exact sound
    · rw [if_neg same, if_neg same]
      exact coherent.sound other
  · intro change member root clears
    rcases List.mem_append.mp member with new | old
    · obtain ⟨kind, noted, rfl⟩ := List.mem_map.mp new
      obtain rfl : kind = .storageRoot root := clears
      exact roots root noted
    · exact coherent.roots change old root clears

theorem Coherent.create (coherent : Coherent state) (nonce balance : U256)
    (missing : state.cache.lookup addr = none)
    (absent : state.stored addr = none) :
    Coherent (state.create addr (.created nonce balance)
      (balanceKinds balance ++ [.create])) := by
  have none : entriesOf state.changeLog addr = [] := by
    have sound := coherent.sound addr
    rwa [missing] at sound
  have trie : StorageTrie state.db emptyTrieRoot := by
    refine ⟨∅, by simp [OverlayDB.openTrie], ?_⟩
    intro key text found
    simp at found
  have usable : Usable state.db (.created nonce balance) :=
    ⟨trie, fun nonempty => absurd rfl nonempty,
      fun _ _ => ⟨.inl rfl, .inl rfl⟩, fun _ new => Bool.noConfusion new⟩
  have sound : SoundLog state.db (state.stored addr)
      ((balanceKinds balance ++ [.create]) ++
        entriesOf state.changeLog addr) (.created nonce balance) := by
    rw [none, List.append_nil]
    by_cases zero : balance = 0
    · have noted : balanceKinds balance = [] := if_neg (not_not.mpr zero)
      rw [noted]
      exact sound_created absent nonce balance
    · have noted : balanceKinds balance = [.balance balance] := if_pos zero
      rw [noted]
      have added :=
        (show SoundLog state.db _ _ _ from
          sound_created absent nonce 0).addBalance balance
      have same : (Account.created nonce 0).addBalance balance =
          .created nonce balance := by
        simp [Account.created, Account.addBalance, Account.changed,
          Account.dead]
      rwa [same] at added
  -- The address is taken from the absent ones before the account is stored.
  have forgotten : Coherent { state with nonExistingAccountsCache :=
      state.nonExistingAccountsCache.filter (· ≠ addr) } := by
    refine ⟨coherent.opened, coherent.complete, ?_, coherent.usable,
      coherent.sound, coherent.roots⟩
    intro other member
    exact coherent.absent other (List.mem_of_mem_filter member)
  refine forgotten.edit usable sound (by simp) ?_
  intro root member
  unfold balanceKinds at member
  split at member <;> simp at member

theorem Coherent.step (coherent : Coherent state)
    (step : Step addr state state') : Coherent state' := by
  cases step with
  | quiet quiet => exact coherent.quiet quiet
  | @edited middle account account' kinds quiet found edit =>
      have middleCoherent := coherent.quiet quiet
      have usable := middleCoherent.usable addr account found
      have sound := middleCoherent.sound addr
      rw [found] at sound
      refine middleCoherent.edit (edit.usable usable) ?_ ?_ ?_
      · exact edit.sound usable
          (fun original stored => (State.stored_overlay stored).1) sound
      · intro alive member
        have dead := (middleCoherent.absent addr member).2 account found
        rw [edit.isAlive, dead] at alive
        exact Bool.noConfusion alive
      · intro root member
        exact absurd member (edit.storageRoot_notMem root)
  | created nonce balance quiet missing absent =>
      exact (coherent.quiet quiet).create nonce balance missing absent

theorem Coherent.steps (coherent : Coherent state)
    (steps : Steps state state') : Coherent state' := by
  induction steps with
  | refl => exact coherent
  | tail _ step induction =>
      obtain ⟨addr, step⟩ := step
      exact induction.step step

end

/-! ## The mutators are sequences of steps -/

namespace State

open Traced

variable {state : State}

theorem stored_of_seen_none {addr : Address}
    (unseen : state.seen addr = none) : state.stored addr = none := by
  unfold seen at unseen
  exact (Option.or_eq_none_iff.mp unseen).2

/-- The end of the mutators that create the account when there is none. -/
theorem step_created {middle : State} {addr : Address}
    (quiet : Quiet state middle) (unseen : state.seen addr = none)
    (cached : middle.cache.lookup addr = state.seen addr)
    (nonce balance : U256) :
    Step addr state (middle.create addr (.created nonce balance)
      (balanceKinds balance ++ [.create])) := by
  refine .created nonce balance quiet (cached.trans unseen) ?_
  rw [quiet.stored]
  exact stored_of_seen_none unseen

/-- `addBalance` changes the account it finds, creates one, or fails to for
want of a start nonce. -/
theorem final_addBalance (coherent : Coherent state) (addr : Address)
    (amount : U256) :
    ∃ middle, Quiet state middle ∧
      middle.cache.lookup addr = state.seen addr ∧
      ((∃ account, state.seen addr = some account ∧
          final (addBalance addr amount) state =
            middle.edit addr (account.addBalance amount)
              (balanceKinds amount ++ touchKinds account)) ∨
        (state.seen addr = none ∧
          final (addBalance addr amount) state =
            middle.create addr (.created middle.accountStartNonce amount)
              (balanceKinds amount ++ [.create])) ∨
        final (addBalance addr amount) state = middle) := by
  obtain ⟨middle, ran, quiet, cached⟩ := run_account coherent addr
  refine ⟨middle, quiet, cached, ?_⟩
  cases seen : state.seen addr with
  | some account =>
      refine .inl ⟨account, rfl, ?_⟩
      rw [seen] at ran
      unfold touchKinds balanceKinds
      cases dirty : account.isDirty <;> cases empty : account.isEmpty <;>
        by_cases zero : amount = 0#256 <;>
          simp [final, addBalance, EStateM.run_bind, ran, dirty, empty,
            zero, edit, note, store]
  | none =>
      rw [seen] at ran
      by_cases invalid : middle.accountStartNonce = invalid256
      · refine .inr (.inr ?_)
        simp [final, addBalance, EStateM.run_bind, ran,
          requireAccountStartNonce, EStateM.run_get, invalid]
        rfl
      · refine .inr (.inl ⟨rfl, ?_⟩)
        unfold balanceKinds
        by_cases zero : amount = 0#256 <;>
          simp [final, addBalance, EStateM.run_bind, ran,
            requireAccountStartNonce, EStateM.run_get, invalid,
            createAccount, zero, create, edit, note, store]

theorem step_addBalance (coherent : Coherent state) (addr : Address)
    (amount : U256) :
    Step addr state (final (addBalance addr amount) state) := by
  obtain ⟨middle, quiet, cached, ⟨account, seen, last⟩ | ⟨seen, last⟩ |
    last⟩ := final_addBalance coherent addr amount
  · rw [last]
    exact .edited quiet (cached.trans seen) (.addBalance account amount)
  · rw [last]
    exact step_created quiet seen cached _ amount
  · rw [last]
    exact .quiet quiet

theorem step_setNonce (coherent : Coherent state) (addr : Address)
    (newNonce : U256) :
    Step addr state (final (setNonce addr newNonce) state) := by
  obtain ⟨middle, ran, quiet, cached⟩ := run_account coherent addr
  cases seen : state.seen addr with
  | some account =>
      have found : middle.cache.lookup addr = some account := by
        rw [cached, seen]
      have last : final (setNonce addr newNonce) state =
          middle.edit addr (account.setNonce newNonce)
            [.nonce account.nonce] := by
        rw [seen] at ran
        simp [final, setNonce, EStateM.run_bind, ran, edit, note, store]
      rw [last]
      exact .edited quiet found (.setNonce account newNonce)
  | none =>
      have last : final (setNonce addr newNonce) state =
          middle.create addr (.created newNonce 0)
            (balanceKinds 0 ++ [.create]) := by
        rw [seen] at ran
        simp [final, setNonce, EStateM.run_bind, ran, createAccount, create,
          edit, store, balanceKinds]
      rw [last]
      exact step_created quiet seen cached newNonce 0

theorem step_incNonce (coherent : Coherent state) (addr : Address) :
    Step addr state (final (incNonce addr) state) := by
  obtain ⟨middle, ran, quiet, cached⟩ := run_account coherent addr
  cases seen : state.seen addr with
  | some account =>
      have found : middle.cache.lookup addr = some account := by
        rw [cached, seen]
      have last : final (incNonce addr) state =
          middle.edit addr (account.setNonce (account.nonce + 1))
            [.nonce account.nonce] := by
        rw [seen] at ran
        simp [final, incNonce, EStateM.run_bind, ran, edit, note, store,
          Account.incNonce, Account.setNonce]
      rw [last]
      exact .edited quiet found (.setNonce account _)
  | none =>
      by_cases invalid : middle.accountStartNonce = invalid256
      · have last : final (incNonce addr) state = middle := by
          rw [seen] at ran
          simp [final, incNonce, EStateM.run_bind, ran,
            requireAccountStartNonce, EStateM.run_get, invalid]
          rfl
        rw [last]
        exact .quiet quiet
      · have last : final (incNonce addr) state =
            middle.create addr (.created (middle.accountStartNonce + 1) 0)
              (balanceKinds 0 ++ [.create]) := by
          rw [seen] at ran
          simp [final, incNonce, EStateM.run_bind, ran,
            requireAccountStartNonce, EStateM.run_get, invalid,
            createAccount, create, edit, store, balanceKinds]
        rw [last]
        exact step_created quiet seen cached _ 0

/-- A read that leads to a step. -/
theorem Step.of_quiet {middle last : State} {addr : Address}
    (coherent : Coherent state) (quiet : Quiet state middle)
    (step : Step addr middle last) : Step addr state last := by
  cases step with
  | quiet later => exact .quiet (quiet.trans coherent later)
  | edited later found edit =>
      exact .edited (quiet.trans coherent later) found edit
  | created nonce balance later missing absent =>
      exact .created nonce balance (quiet.trans coherent later) missing absent

/-- `subBalance` falls back to `addBalance` unless it has nothing to do or
throws. -/
theorem final_subBalance (coherent : Coherent state) (addr : Address)
    (value : U256) :
    ∃ middle, Quiet state middle ∧
      (final (subBalance addr value) state = middle ∨
        ∃ amount, final (subBalance addr value) state =
          final (addBalance addr amount) middle) := by
  by_cases zero : value = 0#256
  · refine ⟨state, .refl state, .inl ?_⟩
    simp [final, subBalance, zero]
  · obtain ⟨middle, ran, quiet, _⟩ := run_account coherent addr
    refine ⟨middle, quiet, ?_⟩
    cases seen : state.seen addr with
    | none =>
        rw [seen] at ran
        refine .inl ?_
        simp [final, subBalance, zero, EStateM.run_bind, ran]
    | some account =>
        rw [seen] at ran
        by_cases short : account.balance < value
        · refine .inl ?_
          simp [final, subBalance, zero, EStateM.run_bind, ran, short]
        · refine .inr ⟨0 - value, ?_⟩
          simp [final, subBalance, zero, EStateM.run_bind, ran, short]

theorem step_subBalance (coherent : Coherent state) (addr : Address)
    (value : U256) : Step addr state (final (subBalance addr value) state) := by
  obtain ⟨middle, quiet, last | ⟨amount, last⟩⟩ :=
    final_subBalance coherent addr value
  · rw [last]
    exact .quiet quiet
  · rw [last]
    exact Step.of_quiet coherent quiet
      (step_addBalance (coherent.quiet quiet) addr amount)

theorem final_setBalance (coherent : Coherent state) (addr : Address)
    (value : U256) :
    ∃ middle, Quiet state middle ∧
      final (setBalance addr value) state =
        final (addBalance addr (value - balanceSeen (state.seen addr)))
          middle := by
  obtain ⟨middle, ran, quiet, _⟩ := run_account coherent addr
  refine ⟨middle, quiet, ?_⟩
  simp only [final, setBalance, EStateM.run_bind, ran]
  cases state.seen addr <;> rfl

theorem step_setBalance (coherent : Coherent state) (addr : Address)
    (value : U256) : Step addr state (final (setBalance addr value) state) := by
  obtain ⟨middle, quiet, last⟩ := final_setBalance coherent addr value
  rw [last]
  exact Step.of_quiet coherent quiet
    (step_addBalance (coherent.quiet quiet) addr _)

theorem steps_transferBalance (coherent : Coherent state)
    (sender recipient : Address) (value : U256) :
    Steps state (final (transferBalance sender recipient value) state) := by
  have first := step_subBalance coherent sender value
  cases ran : (subBalance sender value).run state with
  | error error middle =>
      have last : final (transferBalance sender recipient value) state =
          final (subBalance sender value) state := by
        simp [final, transferBalance, EStateM.run_bind, ran]
      rw [last]
      exact .single ⟨sender, first⟩
  | ok result middle =>
      have reached : final (subBalance sender value) state = middle := by
        simp [final, ran]
      have last : final (transferBalance sender recipient value) state =
          final (addBalance recipient value) middle := by
        simp [final, transferBalance, EStateM.run_bind, ran]
      rw [reached] at first
      rw [last]
      exact (ReflTransGen.single ⟨sender, first⟩).tail
        ⟨recipient, step_addBalance (coherent.step first) recipient value⟩

/-- The change that `setStorage` makes of the account it finds, or of a dead
one. -/
theorem final_setStorage (coherent : Coherent state) (addr : Address)
    (key value : U256) :
    ∃ middle, Quiet state middle ∧
      Option.Rel (fun before after => before.Alike state.db after ∧
        before.isUnchanged = after.isUnchanged)
        (state.seen addr) (middle.cache.lookup addr) ∧
      final (setStorage addr key value) state =
        middle.edit addr ((middle.cacheAt addr).setStorage key value)
          [.storage key (storageSeen state.db key (state.seen addr))] := by
  obtain ⟨middle, ran, quiet, cached⟩ := run_storage coherent addr key
  refine ⟨middle, quiet, cached, ?_⟩
  simp [final, setStorage, EStateM.run_bind, ran, edit, note, store, cacheAt]

theorem step_setStorage (coherent : Coherent state) {addr : Address}
    (exists_ : (state.seen addr).isSome) (key value : U256) :
    Step addr state (final (setStorage addr key value) state) := by
  obtain ⟨middle, quiet, cached, last⟩ :=
    final_setStorage coherent addr key value
  obtain ⟨account, seen⟩ := Option.isSome_iff_exists.mp exists_
  rw [last, seen]
  rw [seen] at cached
  generalize found : middle.cache.lookup addr = entry at cached
  cases cached with
  | @some _ account' alike =>
      have same : storageSeen state.db key (some account) =
          account'.value middle.db key := by
        rw [quiet.db]
        exact alike.1.value key (by simp)
      rw [cacheAt, found, same]
      exact .edited quiet found (.setStorage account' key value)

theorem final_setCode (coherent : Coherent state) (addr : Address)
    (newCode : Bytes) :
    ∃ middle, Quiet state middle ∧
      Option.Rel (fun before after => before.Alike state.db after ∧
        before.isUnchanged = after.isUnchanged)
        (state.seen addr) (middle.cache.lookup addr) ∧
      final (setCode addr newCode) state =
        middle.edit addr ((middle.cacheAt addr).setCode newCode)
          [.code (codeSeen state.db (state.seen addr))] := by
  obtain ⟨middle, ran, quiet, cached⟩ := run_code coherent addr
  refine ⟨middle, quiet, cached, ?_⟩
  simp [final, setCode, EStateM.run_bind, ran, edit, note, store, cacheAt]

theorem step_setCode (coherent : Coherent state) {addr : Address}
    {account : Account} (seen : state.seen addr = some account)
    (dirty : account.isUnchanged = false) (newCode : Bytes) :
    Step addr state (final (setCode addr newCode) state) := by
  obtain ⟨middle, quiet, cached, last⟩ := final_setCode coherent addr newCode
  rw [last, seen]
  rw [seen] at cached
  generalize found : middle.cache.lookup addr = entry at cached
  cases cached with
  | @some _ account' alike =>
      have same : codeSeen state.db (some account) =
          account'.codeOf middle.db := by
        rw [quiet.db]
        exact alike.1.code
      rw [cacheAt, found, same]
      exact .edited quiet found (.setCode account' newCode
        (alike.2 ▸ dirty))

end State

end Aecmio
