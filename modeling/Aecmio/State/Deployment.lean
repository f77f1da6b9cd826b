import Aecmio.State.Restoring

/-!
# Creating a contract

`createContract` puts a new account without balance into the cache, whatever
the state has at the address.  At the fork block the block-hash contract is
created this way and written to the trie, and what anyone had sent to its
address before is gone.
-/

namespace Aecmio

open Traced

section

variable [Hashing]

namespace State

def createContract (addr : Address) : StateM Unit := do
  createAccount addr (.created (← requireAccountStartNonce) 0)

/-- The state after `createContract`. -/
def contracted (state : State) (addr : Address) : State :=
  { state.store addr (.created state.accountStartNonce 0) with
    nonExistingAccountsCache :=
      state.nonExistingAccountsCache.filter (· ≠ addr)
    changeLog := ⟨addr, .create⟩ :: state.changeLog }

/-- The state before the contract is committed. -/
def coded (state : State) (addr : Address) (newCode : Bytes) : State :=
  ((state.contracted addr).note addr (.code [])).store addr
    ((Account.created state.accountStartNonce 0).setCode newCode)

variable {state : State}

theorem lookup_coded (state : State) (addr : Address) (newCode : Bytes)
    (other : Address) :
    (state.coded addr newCode).cache.lookup other =
      if other = addr then
        some ((Account.created state.accountStartNonce 0).setCode newCode)
      else state.cache.lookup other := by
  by_cases same : other = addr
  · subst same
    simp [coded, store]
  · simp [coded, contracted, store, note, same]

theorem stored_coded (state : State) (addr : Address) (newCode : Bytes)
    (other : Address) :
    (state.coded addr newCode).stored other = state.stored other := rfl

end State

variable {state state' : State} {addr : Address} {newCode : Bytes}

/-- What is written for the contract. -/
theorem Committed.contract
    (committed : Committed .keepEmptyAccounts (state.coded addr newCode) state')
    (injective : state'.db.Injective) (inside : newCode ∈ state'.db.codes) :
    ∃ fields : AccountFields, fields.balance = 0 ∧
      state'.stored addr = some (.stored fields) ∧
      (Account.stored fields).codeOf state'.db = newCode := by
  have cached := state.lookup_coded addr newCode addr
  rw [if_pos rfl] at cached
  have outcome := committed.outcome injective addr _ cached
  have kept : swept .keepEmptyAccounts ((Account.created
      state.accountStartNonce 0).setCode newCode) =
        (Account.created state.accountStartNonce 0).setCode newCode := rfl
  rw [kept] at outcome
  obtain ⟨fields, present, written⟩ := outcome
  refine ⟨fields, written.balance, ?_, ?_⟩
  · simp [State.stored, present, AccountFields.accountFields_encoding]
  · rw [written.codeOf]
    show (if sha3 newCode = emptySHA3 then [] else
      if newCode.isEmpty then _ else newCode) = newCode
    by_cases empty : newCode = []
    · rw [empty]
      exact if_pos rfl
    · have apart : sha3 newCode ≠ emptySHA3 := by
        intro same
        exact empty (injective.codes newCode (List.mem_cons_of_mem _ inside) []
          List.mem_cons_self same)
      have loaded : newCode.isEmpty = false := by simpa using empty
      rw [if_neg apart, loaded]
      rfl

end

section Sample

attribute [local instance] sampleHashing

end Sample

end Aecmio
