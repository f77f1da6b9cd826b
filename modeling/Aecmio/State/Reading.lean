import Aecmio.State.Coherent

/-!
# What reads return

In a coherent state no read fails, each returns what the account seen for
the address says, and none of them can be observed afterwards.
-/

namespace Aecmio

open Relation

namespace State

variable [Hashing] {state state' : State} {addr : Address}

/-! ## Eviction -/

theorem quiet_evict (state : State) : Quiet state state.evict := by
  refine ⟨rfl, rfl, rfl, rfl, fun _ member => .inl member, ?_⟩
  intro addr
  unfold evict
  dsimp only
  generalize state.unchangedCacheEntries.getD _ _ = chosen
  cases found : state.cache.lookup chosen with
  | none => exact .refl
  | some account =>
      dsimp only
      split
      · rename_i clean
        by_cases same : addr = chosen
        · subst same
          rw [AList.lookup_erase, found]
          refine .single (.evicted ?_)
          simpa [Account.isDirty] using clean
        · rw [AList.lookup_erase_ne same]
      · exact .refl

theorem quiet_clearCacheLoop (rounds : Nat) (coherent : Coherent state) :
    Quiet state (clearCacheLoop rounds state) := by
  induction rounds generalizing state with
  | zero => exact .refl state
  | succ rounds induction =>
      unfold clearCacheLoop
      split
      · have first := quiet_evict state
        exact first.trans coherent (induction (coherent.quiet first))
      · exact .refl state

theorem quiet_clearCacheIfTooLarge (coherent : Coherent state) :
    Quiet state state.clearCacheIfTooLarge :=
  quiet_clearCacheLoop _ coherent

omit [Hashing] in
theorem lookup_evict_none (missing : state.cache.lookup addr = none) :
    state.evict.cache.lookup addr = none := by
  unfold evict
  dsimp only
  generalize state.unchangedCacheEntries.getD _ _ = chosen
  cases state.cache.lookup chosen with
  | none => exact missing
  | some account =>
      dsimp only
      split
      · by_cases same : addr = chosen
        · rw [same, AList.lookup_erase]
        · rw [AList.lookup_erase_ne same, missing]
      · exact missing

omit [Hashing] in
theorem lookup_clearCacheLoop_none (rounds : Nat)
    (missing : state.cache.lookup addr = none) :
    (clearCacheLoop rounds state).cache.lookup addr = none := by
  induction rounds generalizing state with
  | zero => exact missing
  | succ rounds induction =>
      unfold clearCacheLoop
      split
      · exact induction (lookup_evict_none missing)
      · exact missing

/-! ## Loading an account -/

/-- A step at the end of a read that writes what the trie has. -/
theorem quiet_store {entry : Account}
    (refreshed : ReflTransGen (Refreshed state.db (state.stored addr))
      (state.cache.lookup addr) (some entry)) :
    Quiet state (state.store addr entry) := by
  refine ⟨rfl, rfl, rfl, rfl, fun _ member => .inl member, ?_⟩
  intro other
  by_cases same : other = addr
  · subst same
    simpa [store] using refreshed
  · simp only [store, AList.lookup_insert_ne same]
    exact .refl

/-- `account` succeeds, and afterwards the cache has the account seen. -/
theorem run_account (coherent : Coherent state) (addr : Address) :
    ∃ state', (account addr).run state = .ok (state.seen addr) state' ∧
      Quiet state state' ∧
      state'.cache.lookup addr = state.seen addr := by
  cases found : state.cache.lookup addr with
  | some account =>
      refine ⟨state, ?_, .refl state, ?_⟩
      · simp [State.account, found, seen, EStateM.run_bind, EStateM.run_get]
      · simp [seen, found]
  | none =>
      by_cases known : addr ∈ state.nonExistingAccountsCache
      · have absent := (coherent.absent addr known).1
        refine ⟨state, ?_, .refl state, ?_⟩
        · simp [State.account, found, seen, absent, known, EStateM.run_bind,
            EStateM.run_get]
        · simp [seen, found, absent]
      · rcases coherent.complete.stored addr with ⟨missing, absent⟩ |
          ⟨fields, text, present, _, _⟩
        · refine ⟨{ state with nonExistingAccountsCache :=
            addr :: state.nonExistingAccountsCache }, ?_, ?_, ?_⟩
          · simp [State.account, found, seen, absent, known, missing,
              EStateM.run_bind, EStateM.run_get]
          · refine ⟨rfl, rfl, rfl, rfl, ?_, fun _ => .refl⟩
            intro other member
            rcases List.mem_cons.mp member with same | before
            · subst same
              exact .inr ⟨absent, found⟩
            · exact .inl before
          · simp [seen, found, absent]
        · have cleared := quiet_clearCacheIfTooLarge coherent
          have gone : state.clearCacheIfTooLarge.cache.lookup addr = none :=
            lookup_clearCacheLoop_none _ found
          have loaded : Quiet state
              (state.clearCacheIfTooLarge.store addr (.stored fields)) := by
            refine cleared.trans coherent (quiet_store ?_)
            rw [gone, cleared.stored]
            exact .single (.loaded present)
          refine ⟨{ state.clearCacheIfTooLarge.store addr (.stored fields) with
            unchangedCacheEntries :=
              state.clearCacheIfTooLarge.unchangedCacheEntries ++ [addr] },
            ?_, ?_, ?_⟩
          · simp [State.account, found, seen, present, known, text,
              AccountFields.encoding_ne_nil,
              AccountFields.accountFields_encoding, ofExcept,
              EStateM.run_bind, EStateM.run_get]
          · exact { loaded with }
          · simp [seen, found, present, store]


/-! ## The reads -/

/-- What a read returns, whatever it does to the cache. -/
def reading {α : Type} (read : StateM α) (state : State) :
    Except StateError α :=
  match read.run state with
  | .ok value _ => .ok value
  | .error error _ => .error error

def balanceSeen : Option Account → U256
  | some account => account.balance
  | none => 0

def storageSeen (db : OverlayDB) (key : U256) : Option Account → U256
  | some account => account.value db key
  | none => 0

def codeSeen (db : OverlayDB) : Option Account → Bytes
  | some account => account.codeOf db
  | none => []

def nonceSeen (startNonce : U256) : Option Account → U256
  | some account => account.nonce
  | none => startNonce

def codeHashSeen : Option Account → H256
  | some account => account.codeHash
  | none => emptySHA3

def nonemptySeen : Option Account → Bool
  | some account => !account.isEmpty
  | none => false

theorem run_addressInUse (coherent : Coherent state) (addr : Address) :
    ∃ state', (addressInUse addr).run state =
        .ok (state.seen addr).isSome state' ∧ Quiet state state' := by
  obtain ⟨state', ran, quiet, _⟩ := run_account coherent addr
  refine ⟨state', ?_, quiet⟩
  simp [addressInUse, EStateM.run_bind, ran]

theorem run_accountNonemptyAndExisting (coherent : Coherent state)
    (addr : Address) :
    ∃ state', (accountNonemptyAndExisting addr).run state =
        .ok (nonemptySeen (state.seen addr)) state' ∧ Quiet state state' := by
  obtain ⟨state', ran, quiet, _⟩ := run_account coherent addr
  refine ⟨state', ?_, quiet⟩
  simp only [accountNonemptyAndExisting, EStateM.run_bind, ran]
  cases state.seen addr <;> rfl

theorem run_balance (coherent : Coherent state) (addr : Address) :
    ∃ state', (balance addr).run state =
        .ok (balanceSeen (state.seen addr)) state' ∧ Quiet state state' := by
  obtain ⟨state', ran, quiet, _⟩ := run_account coherent addr
  refine ⟨state', ?_, quiet⟩
  simp only [balance, EStateM.run_bind, ran]
  cases state.seen addr <;> rfl

theorem run_getNonce (coherent : Coherent state) (addr : Address) :
    ∃ state', (getNonce addr).run state =
        .ok (nonceSeen state.accountStartNonce (state.seen addr)) state' ∧
      Quiet state state' := by
  obtain ⟨state', ran, quiet, _⟩ := run_account coherent addr
  refine ⟨state', ?_, quiet⟩
  simp only [getNonce, EStateM.run_bind, ran]
  cases state.seen addr with
  | some account => rfl
  | none =>
      simp [nonceSeen, EStateM.run_bind, EStateM.run_get, quiet.startNonce]

theorem run_codeHash (coherent : Coherent state) (addr : Address) :
    ∃ state', (codeHash addr).run state =
        .ok (codeHashSeen (state.seen addr)) state' ∧ Quiet state state' := by
  obtain ⟨state', ran, quiet, _⟩ := run_account coherent addr
  refine ⟨state', ?_, quiet⟩
  simp only [codeHash, EStateM.run_bind, ran]
  cases state.seen addr <;> rfl

theorem run_addressHasCode (coherent : Coherent state) (addr : Address) :
    ∃ state', (addressHasCode addr).run state =
        .ok (codeHashSeen (state.seen addr) != emptySHA3) state' ∧
      Quiet state state' := by
  obtain ⟨state', ran, quiet, _⟩ := run_account coherent addr
  refine ⟨state', ?_, quiet⟩
  simp only [addressHasCode, EStateM.run_bind, ran]
  cases state.seen addr <;> simp [codeHashSeen]

/-- Reading a slot leaves an account in the cache that looks as before and
has the same mark. -/
theorem run_storage (coherent : Coherent state) (addr : Address)
    (key : U256) :
    ∃ state', (storage addr key).run state =
        .ok (storageSeen state.db key (state.seen addr)) state' ∧
      Quiet state state' ∧
      Option.Rel (fun before after => before.Alike state.db after ∧
        before.isUnchanged = after.isUnchanged)
        (state.seen addr) (state'.cache.lookup addr) := by
  obtain ⟨middle, ran, quiet, cached⟩ := run_account coherent addr
  cases seen : state.seen addr with
  | none =>
      rw [seen] at cached ran
      refine ⟨middle, ?_, quiet, ?_⟩
      · simp [storage, EStateM.run_bind, ran, storageSeen]
      · rw [cached]
        exact .none
  | some account =>
      rw [seen] at ran cached
      cases overlay : account.storageOverlay.lookup key with
      | some value =>
          refine ⟨middle, ?_, quiet, ?_⟩
          · simp [storage, EStateM.run_bind, ran, overlay, storageSeen,
              Account.value]
          · rw [cached]
            exact .some ⟨.refl account, rfl⟩
      | none =>
          have usable := (coherent.quiet quiet).usable addr account cached
          have database := quiet.db
          obtain ⟨contents, opened, read⟩ := usable.storage.slot key
          have step : Refreshed middle.db (middle.stored addr)
              (middle.cache.lookup addr) _ :=
            cached ▸ Refreshed.slot key overlay
          have stored := quiet.trans coherent (quiet_store (.single step))
          rw [database] at opened read stored
          refine ⟨_, ?_, stored, ?_⟩
          · simp [storage, EStateM.run_bind, EStateM.run_get, ran, overlay,
              database, opened, read, ofExcept, storageSeen, Account.value]
          · simp only [store, AList.lookup_insert]
            exact .some ⟨alike_setStorageCache overlay, rfl⟩

/-- The same for the code. -/
theorem run_code (coherent : Coherent state) (addr : Address) :
    ∃ state', (code addr).run state =
        .ok (codeSeen state.db (state.seen addr)) state' ∧
      Quiet state state' ∧
      Option.Rel (fun before after => before.Alike state.db after ∧
        before.isUnchanged = after.isUnchanged)
        (state.seen addr) (state'.cache.lookup addr) := by
  obtain ⟨middle, ran, quiet, cached⟩ := run_account coherent addr
  cases seen : state.seen addr with
  | none =>
      rw [seen] at cached ran
      refine ⟨middle, ?_, quiet, ?_⟩
      · simp [code, EStateM.run_bind, ran, codeSeen]
      · rw [cached]
        exact .none
  | some account =>
      rw [seen] at ran cached
      by_cases empty : account.codeHash = emptySHA3
      · refine ⟨middle, ?_, quiet, ?_⟩
        · simp [code, EStateM.run_bind, ran, codeSeen, Account.codeOf, empty]
        · rw [cached]
          exact .some ⟨.refl account, rfl⟩
      · cases missing : account.codeCache.isEmpty with
        | false =>
            have present : account.codeCache ≠ [] := by simpa using missing
            refine ⟨middle, ?_, quiet, ?_⟩
            · simp [code, EStateM.run_bind, ran, codeSeen, Account.codeOf,
                empty, present]
            · rw [cached]
              exact .some ⟨.refl account, rfl⟩
        | true =>
            have database := quiet.db
            have step : Refreshed middle.db (middle.stored addr)
                (middle.cache.lookup addr) _ :=
              cached ▸ Refreshed.code empty missing
            have stored := quiet.trans coherent (quiet_store (.single step))
            rw [database] at stored
            have none : account.codeCache = [] := by simpa using missing
            refine ⟨_, ?_, stored, ?_⟩
            · simp [code, EStateM.run_bind, EStateM.run_get, ran, empty,
                none, database, codeSeen, Account.codeOf]
            · simp only [store, AList.lookup_insert]
              exact .some ⟨alike_noteCode empty missing, rfl⟩

end State

end Aecmio
