import Aecmio.Logic.Traced
import Aecmio.State.Account

/-!
# The state and its operations

`State` is a cache of accounts over the state trie.  Reads load accounts and
may evict unchanged ones at random; mutators record what they change in the
change log, from which `rollback` undoes it; `commit` writes the changed
accounts to the trie.  The change log is kept newest entry first.
-/

namespace Aecmio

structure State where
  db : OverlayDB
  /-- The contents of `m_state`. -/
  trie : Contents
  cache : AList (fun _ : Address => Account) := ∅
  unchangedCacheEntries : List Address := []
  nonExistingAccountsCache : List Address := []
  touched : List Address := []
  accountStartNonce : U256
  changeLog : List Change := []
  /-- The numbers that the random engine will give. -/
  randomness : Nat → Nat

/-- A method of the state; an exception keeps what was done before it. -/
abbrev StateM := EStateM StateError State

/-- `Address()`. -/
def zeroAddress : Address := ⟨List.replicate 20 0, length_zeroes_address⟩

/-- `Invalid256`. -/
def invalid256 : U256 := BitVec.allOnes 256

inductive CommitBehaviour where
  | keepEmptyAccounts
  | removeEmptyAccounts
deriving DecidableEq

namespace State

variable [Hashing]

def rootHash (state : State) : H256 := trieRoot state.trie

/-- A state over an existing database, set to a root of it. -/
def openAt (db : OverlayDB) (accountStartNonce : U256) (root : H256)
    (randomness : Nat → Nat) : Except StateError State := do
  let trie ← db.openTrie root
  return { db, trie, accountStartNonce, randomness }

/-- A result without effects on the state. -/
def ofExcept {α : Type} (result : Except StateError α) : StateM α :=
  match result with
  | .ok value => pure value
  | .error error => throw error

/-! ## The account cache -/

/-- One round of the loop of `clearCacheIfTooLarge`. -/
def evict (state : State) : State :=
  let entries := state.unchangedCacheEntries
  let randomIndex := state.randomness 0 % entries.length
  let addr := entries.getD randomIndex zeroAddress
  let back := entries.getLastD zeroAddress
  let rest := (entries.set randomIndex back).dropLast
  let cache := match state.cache.lookup addr with
    | some account =>
        if !account.isDirty then state.cache.erase addr else state.cache
    | none => state.cache
  { state with
    cache
    unchangedCacheEntries := rest
    randomness := fun draw => state.randomness (draw + 1) }

def clearCacheLoop : Nat → State → State
  | 0, state => state
  | rounds + 1, state =>
      if 1000 < state.unchangedCacheEntries.length then
        clearCacheLoop rounds state.evict
      else state

/-- Every round takes one entry from the list, so its length is enough. -/
def clearCacheIfTooLarge (state : State) : State :=
  clearCacheLoop state.unchangedCacheEntries.length state

/-- `m_cache[addr]`. -/
def cacheAt (state : State) (addr : Address) : Account :=
  (state.cache.lookup addr).getD .dead

/-- A write through `m_cache[addr]` or through a pointer into the cache. -/
def store (state : State) (addr : Address) (account : Account) : State :=
  { state with cache := state.cache.insert addr account }

/-- `m_changeLog.emplace_back`. -/
def note (state : State) (addr : Address) (kind : ChangeKind) : State :=
  { state with changeLog := ⟨addr, kind⟩ :: state.changeLog }

def account (addr : Address) : StateM (Option Account) := do
  let state ← get
  match state.cache.lookup addr with
  | some account => return some account
  | none =>
      if addr ∈ state.nonExistingAccountsCache then return none
      else
        let stateBack := (state.trie.lookup addr.val).getD []
        if stateBack.isEmpty then
          modify fun state => { state with nonExistingAccountsCache :=
            addr :: state.nonExistingAccountsCache }
          return none
        else
          modify clearCacheIfTooLarge
          let fields ← ofExcept (accountFields stateBack)
          modify fun state => { state.store addr (.stored fields) with
            unchangedCacheEntries := state.unchangedCacheEntries ++ [addr] }
          return some (.stored fields)

/-! ## Reads -/

def addressInUse (addr : Address) : StateM Bool := do
  return (← account addr).isSome

def accountNonemptyAndExisting (addr : Address) : StateM Bool := do
  match ← account addr with
  | some account => return !account.isEmpty
  | none => return false

def addressHasCode (addr : Address) : StateM Bool := do
  match ← account addr with
  | some account => return account.codeHash != emptySHA3
  | none => return false

def balance (addr : Address) : StateM U256 := do
  match ← account addr with
  | some account => return account.balance
  | none => return 0

def getNonce (addr : Address) : StateM U256 := do
  match ← account addr with
  | some account => return account.nonce
  | none => return (← get).accountStartNonce

def storage (addr : Address) (key : U256) : StateM U256 := do
  match ← account addr with
  | some account =>
      match account.storageOverlay.lookup key with
      | some value => return value
      | none =>
          let memdb ← ofExcept ((← get).db.openTrie account.storageRoot)
          let payload := (memdb.lookup (storageKey key)).getD []
          let value ← ofExcept (storageValue payload)
          modify fun state =>
            state.store addr (account.setStorageCache key value)
          return value
  | none => return 0

def code (addr : Address) : StateM Bytes := do
  match ← account addr with
  | some account =>
      if account.codeHash = emptySHA3 then return []
      else if account.codeCache.isEmpty then
        let code := (← get).db.lookup account.codeHash
        modify fun state => state.store addr (account.noteCode code)
        return code
      else return account.codeCache
  | none => return []

def codeHash (addr : Address) : StateM H256 := do
  match ← account addr with
  | some account => return account.codeHash
  | none => return emptySHA3

/-! ## Mutators -/

def requireAccountStartNonce : StateM U256 := do
  let state ← get
  if state.accountStartNonce = invalid256 then
    throw .invalidAccountStartNonceInState
  else return state.accountStartNonce

def createAccount (addr : Address) (account : Account) : StateM Unit :=
  modify fun state =>
    { state.store addr account with
      nonExistingAccountsCache :=
        state.nonExistingAccountsCache.filter (· ≠ addr)
      changeLog := ⟨addr, .create⟩ :: state.changeLog }

def incNonce (addr : Address) : StateM Unit := do
  match ← account addr with
  | some account =>
      modify fun state =>
        (state.store addr account.incNonce).note addr (.nonce account.nonce)
  | none =>
      createAccount addr (.created ((← requireAccountStartNonce) + 1) 0)

def setNonce (addr : Address) (newNonce : U256) : StateM Unit := do
  match ← account addr with
  | some account =>
      modify fun state =>
        (state.store addr (account.setNonce newNonce)).note addr
          (.nonce account.nonce)
  | none => createAccount addr (.created newNonce 0)

def addBalance (addr : Address) (amount : U256) : StateM Unit := do
  match ← account addr with
  | some account =>
      if !account.isDirty && account.isEmpty then
        modify fun state => state.note addr .touch
      modify fun state => state.store addr (account.addBalance amount)
  | none =>
      createAccount addr (.created (← requireAccountStartNonce) amount)
  if amount ≠ 0 then
    modify fun state => state.note addr (.balance amount)

def subBalance (addr : Address) (value : U256) : StateM Unit := do
  if value = 0 then return
  else
    match ← account addr with
    | some account =>
        if account.balance < value then throw .notEnoughCash
        else addBalance addr (0 - value)
    | none => throw .notEnoughCash

def setBalance (addr : Address) (value : U256) : StateM Unit := do
  let original := match ← account addr with
    | some account => account.balance
    | none => 0
  addBalance addr (value - original)

def transferBalance (sender recipient : Address) (value : U256) :
    StateM Unit := do
  subBalance sender value
  addBalance recipient value

def setStorage (contract : Address) (key value : U256) : StateM Unit := do
  let old ← storage contract key
  modify fun state => state.note contract (.storage key old)
  modify fun state =>
    state.store contract ((state.cacheAt contract).setStorage key value)

def clearStorage (contract : Address) : StateM Unit := do
  -- `m_cache[contract]` puts a dead account into the cache when it has none.
  modify fun state => state.store contract (state.cacheAt contract)
  let oldHash := ((← get).cacheAt contract).storageRoot
  if oldHash = emptyTrieRoot then return
  else
    modify fun state => state.note contract (.storageRoot oldHash)
    modify fun state =>
      state.store contract (state.cacheAt contract).clearStorage

def setCode (addr : Address) (newCode : Bytes) : StateM Unit := do
  let old ← code addr
  modify fun state => state.note addr (.code old)
  modify fun state =>
    state.store addr ((state.cacheAt addr).setCode newCode)

def kill (addr : Address) : StateM Unit := do
  match ← account addr with
  | some account => modify fun state => state.store addr account.kill
  | none => return

/-! ## Savepoints -/

def savepoint (state : State) : Nat := state.changeLog.length

/-- One round of `rollback`. -/
def undo (state : State) (change : Change) : State :=
  let addr := change.address
  match change.kind.undo (state.cacheAt addr) with
  | some account =>
      { state.store addr account with
        unchangedCacheEntries :=
          if change.kind = .touch then state.unchangedCacheEntries ++ [addr]
          else state.unchangedCacheEntries }
  | none => { state with cache := state.cache.erase addr }

def rollbackLoop (savepoint : Nat) : List Change → StateM Unit
  | [] => if savepoint = 0 then return else throw .emptyChangeLog
  | change :: rest =>
      if savepoint = rest.length + 1 then return
      else do
        modify fun state => { state.undo change with changeLog := rest }
        rollbackLoop savepoint rest

def rollback (savepoint : Nat) : StateM Unit := do
  rollbackLoop savepoint (← get).changeLog

/-! ## Commit -/

/-- The storage trie with one entry of the overlay written to it. -/
def writeSlot (written : OverlayDB × Contents) (slot : U256 × U256) :
    Except StateError (OverlayDB × Contents) :=
  if slot.2 ≠ 0 then do
    let text ← storageText slot.2
    let contents : Contents := Finmap.insert (storageKey slot.1) text written.2
    return (written.1.insertTrie contents, contents)
  else
    let contents : Contents := Finmap.erase (storageKey slot.1) written.2
    return (written.1.insertTrie contents, contents)

/-- The storage root that is written for an account. -/
def writeStorage (db : OverlayDB) (account : Account) :
    Except StateError (OverlayDB × H256) := do
  let overlay := account.storageOverlay.entries.map fun slot =>
    (slot.1, slot.2)
  if overlay.isEmpty then return (db, account.storageRoot)
  else
    let contents ← db.openTrie account.storageRoot
    let (db, contents) ← overlay.foldlM writeSlot (db, contents)
    return (db, trieRoot contents)

/-- One round of the loop of `dev::aec::commit`. -/
def commitAccount (written : OverlayDB × Contents)
    (entry : Address × Account) : Except StateError (OverlayDB × Contents) := do
  let (addr, account) := entry
  if !account.isDirty then return written
  else if !account.isAlive then
    let trie : Contents := Finmap.erase addr.val written.2
    return (written.1.insertTrie trie, trie)
  else
    let (db, storageRoot) ← writeStorage written.1 account
    let db := if account.hasNewCode then db.insertCode account.codeCache else db
    let text ← accountText account.nonce account.balance storageRoot
      account.codeHash
    let trie : Contents := Finmap.insert addr.val text written.2
    return (db.insertTrie trie, trie)

def cacheEntries (state : State) : List (Address × Account) :=
  state.cache.entries.map fun entry => (entry.1, entry.2)

def removeEmptyAccounts (state : State) : State :=
  state.cacheEntries.foldl
    (fun state entry =>
      if entry.2.isDirty && entry.2.isEmpty then
        state.store entry.1 entry.2.kill
      else state)
    state

/-- `commit` after empty accounts have been dealt with. -/
def writeCache : StateM Unit := do
  let state ← get
  let (db, trie) ← ofExcept
    (state.cacheEntries.foldlM commitAccount (state.db, state.trie))
  let written := state.cacheEntries.filter fun entry => entry.2.isDirty
  set { state with
    db
    trie
    touched := state.touched ++ written.map Prod.fst
    changeLog := []
    cache := ∅
    unchangedCacheEntries := [] }

def commit (behaviour : CommitBehaviour) : StateM Unit := do
  if behaviour = .removeEmptyAccounts then modify removeEmptyAccounts
  writeCache

end State

end Aecmio
