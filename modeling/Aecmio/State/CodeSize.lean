import Aecmio.Logic.Keeping
import Aecmio.Logic.Runs
import Aecmio.State.Deployment

/-!
# The sizes of codes

All states of a process share a cache of the sizes of codes, by the hashes of
the codes.  `codeSize` looks into it unless the account has a new code, whose
size it takes as it is.  An account that is killed loses its code, but goes on
having a new one.
-/

namespace Aecmio

open Traced

/-! ## The cache -/

structure CodeSizeCache where
  cache : AList (fun _ : H256 => Nat) := ∅
  /-- The places of the elements that are removed. -/
  randomness : Nat → Nat

namespace CodeSizeCache

def c_maxSize : Nat := 50000

def removeRandomElement (sizes : CodeSizeCache) : CodeSizeCache :=
  match sizes.cache.keys[sizes.randomness 0 % sizes.cache.keys.length]? with
  | none => sizes
  | some hash =>
      { cache := sizes.cache.erase hash
        randomness := fun draw => sizes.randomness (draw + 1) }

def store (hash : H256) (size : Nat) (sizes : CodeSizeCache) :
    CodeSizeCache :=
  let sizes := if c_maxSize ≤ sizes.cache.keys.length then
    sizes.removeRandomElement else sizes
  { sizes with cache := sizes.cache.insert hash size }

end CodeSizeCache

/-! ## The methods -/

/-- A state and the cache. -/
structure Sized where
  state : State
  sizes : CodeSizeCache

/-- A method of a state that may use the cache. -/
abbrev SizedM := EStateM StateError Sized

/-- A method that does not use the cache. -/
def onState {α : Type} (method : StateM α) : SizedM α := fun sized =>
  match method.run sized.state with
  | .ok value state => .ok value { sized with state }
  | .error error state => .error error { sized with state }

namespace State

variable [Hashing]

def setRoot (root : H256) : StateM Unit := do
  modify fun state => { state with
    cache := ∅
    unchangedCacheEntries := []
    nonExistingAccountsCache := [] }
  let trie ← ofExcept ((← get).db.openTrie root)
  modify fun state => { state with trie }

/-- What `execute` does at the end when it is `Permanence::Reverted`. -/
def revert : StateM Unit :=
  modify fun state => { state with cache := ∅ }

/-- `operator=`, which leaves the change log as it is. -/
def assign (state source : State) : State :=
  { source with
    changeLog := state.changeLog
    randomness := state.randomness }

/-- `dev::aec::commit` of some accounts to the trie. -/
def writeAccounts (entries : List (Address × Account)) : StateM Unit := do
  let state ← get
  let (db, trie) ← ofExcept
    (entries.foldlM commitAccount (state.db, state.trie))
  set { state with db, trie }

end State

/-- An account in the map of a genesis state. -/
structure Allocation where
  nonce : U256
  balance : U256
  storage : List (U256 × U256) := []
  code : Option Bytes := none
deriving DecidableEq

namespace Allocation

variable [Hashing]

def storageSet (allocation : Allocation) : Account :=
  allocation.storage.foldl
    (fun account slot => account.setStorage slot.1 slot.2)
    (.created allocation.nonce allocation.balance)

def account (allocation : Allocation) : Account :=
  match allocation.code with
  | none => allocation.storageSet
  | some code => allocation.storageSet.setCode code

end Allocation

namespace Sized

variable [Hashing]

def code (addr : Address) : SizedM Bytes := do
  match ← onState (State.account addr) with
  | some account =>
      if account.codeHash = emptySHA3 then return []
      else if account.codeCache.isEmpty then
        let code := (← get).state.db.lookup account.codeHash
        modify fun sized => { sized with
          state := sized.state.store addr (account.noteCode code)
          sizes := sized.sizes.store account.codeHash code.length }
        return code
      else return account.codeCache
  | none => return []

def codeSize (addr : Address) : SizedM Nat := do
  match ← onState (State.account addr) with
  | some account =>
      if account.hasNewCode then return account.codeCache.length
      else
        match (← get).sizes.cache.lookup account.codeHash with
        | some size => return size
        | none =>
            let size := (← code addr).length
            modify fun sized => { sized with
              sizes := sized.sizes.store account.codeHash size }
            return size
  | none => return 0

def setCode (addr : Address) (newCode : Bytes) : SizedM Unit := do
  let old ← code addr
  onState do
    modify fun state => state.note addr (.code old)
    modify fun state =>
      state.store addr ((state.cacheAt addr).setCode newCode)

/-- The sizes that are stored while some accounts are committed. -/
def noteSizes (entries : List (Address × Account)) (sized : Sized) : Sized :=
  { sized with
    sizes := entries.foldl
      (fun sizes entry =>
        if entry.2.isDirty && entry.2.isAlive && entry.2.hasNewCode then
          sizes.store entry.2.codeHash entry.2.codeCache.length
        else sizes)
      sized.sizes }

def commit (behaviour : CommitBehaviour) : SizedM Unit := do
  if behaviour = .removeEmptyAccounts then
    onState (modify State.removeEmptyAccounts)
  modify fun sized => sized.noteSizes sized.state.cacheEntries
  onState State.writeCache

def populateFrom (map : List (Address × Allocation)) : SizedM Unit := do
  let entries := map.map fun entry => (entry.1, entry.2.account)
  modify (noteSizes entries)
  onState (State.writeAccounts entries)
  commit .keepEmptyAccounts

end Sized

/-- The public methods of a state. -/
inductive Action where
  | call (call : Call)
  | codeSize (addr : Address)
  | createContract (addr : Address)
  | setRoot (root : H256)
  | revert
  | populateFrom (map : List (Address × Allocation))

def Action.run [Hashing] : Action → SizedM Unit
  | .call (.read (.code addr)) => do let _ ← Sized.code addr
  | .call (.setCode addr newCode) => Sized.setCode addr newCode
  | .call (.commit behaviour) => Sized.commit behaviour
  | .call method => onState method.run
  | .codeSize addr => do let _ ← Sized.codeSize addr
  | .createContract addr => onState (State.createContract addr)
  | .setRoot root => onState (State.setRoot root)
  | .revert => onState State.revert
  | .populateFrom map => Sized.populateFrom map

/-- The states of a process. -/
structure SharedStates where
  states : Nat → State
  sizes : CodeSizeCache

namespace SharedStates

/-- One of the states, with the cache. -/
def sized (process : SharedStates) (index : Nat) : Sized :=
  ⟨process.states index, process.sizes⟩

/-- A method of one of the states is called, or a state is assigned to
another one. -/
inductive Input where
  | act (index : Nat) (action : Action)
  | assign (index source : Nat)

def step [Hashing] (process : SharedStates) : Input → Option SharedStates
  | .act index action =>
      let after := final action.run (process.sized index)
      some ⟨Function.update process.states index after.state, after.sizes⟩
  | .assign index source => some { process with
      states := Function.update process.states index
        ((process.states index).assign (process.states source)) }

end SharedStates

end Aecmio
