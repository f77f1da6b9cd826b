import Aecmio.Chain.LogMatching
import Aecmio.Chain.TransactionSync

/-!
# Notifications of pending transactions

`Client::syncTransactionQueue` tells the filters of each receipt that the
working block has got, and names the transaction by its hash.  The hashes are
those at the start of the pending block, whatever was pending before.
-/

namespace Aecmio

open WorkingBlock
open TransactionQueue (Transaction)

structure InstalledFilter where
  filter : LogFilter
  changes : List LogEntry := []

/-- The blocks and the filters of a client. -/
structure PendingClient (σ : Type) where
  working : WorkingBlock σ
  postSeal : WorkingBlock σ
  /-- `m_specialFilters[PendingChangedFilter]`. -/
  pendingChanged : List H256 := []
  filters : List (H256 × InstalledFilter) := []

/-- One call: the queue it finds, the head of the chain, the clock and what
its executions do. -/
structure SyncCall (σ : Type) where
  environment : SyncEnvironment σ
  clock : Nat → Bool
  fuel : Nat
  currentHash : H256
  queue : TransactionQueue

namespace PendingClient

variable {σ : Type}

def pendingChangedFilter : H256 := zeroHash 32

section

variable [Hashing]

/-- The loop over `m_filters`. -/
def notifyFilters (receipt : TransactionReceipt) :
    List (H256 × InstalledFilter) → Finset H256 →
    Option (List (H256 × InstalledFilter) × Finset H256)
  | [], changed => some ([], changed)
  | (id, installed) :: rest, changed => do
      let logs ← installed.filter.matchesReceipt receipt
      let changed := if logs.isEmpty then changed else Insert.insert id changed
      let (rest, changed) ← notifyFilters receipt rest changed
      return ((id, { installed with
        changes := installed.changes ++ logs }) :: rest, changed)

def appendFromNewPending (client : PendingClient σ)
    (receipt : TransactionReceipt) (changed : Finset H256) (sha3 : H256) :
    Option (PendingClient σ × Finset H256) := do
  let changed := Insert.insert pendingChangedFilter changed
  let (filters, changed) ← notifyFilters receipt client.filters changed
  return ({ client with
    pendingChanged := client.pendingChanged ++ [sha3], filters }, changed)

/-- The loop over the new receipts. -/
def appendAll (client : PendingClient σ) (changed : Finset H256) :
    List (TransactionReceipt × H256) →
    Option (PendingClient σ × Finset H256)
  | [] => some (client, changed)
  | (receipt, sha3) :: rest => do
      let (client, changed) ← client.appendFromNewPending receipt changed sha3
      client.appendAll changed rest

/-- What the loop passes on: receipt `i` with the hash of
`m_postSeal.pending()[i]`, which has at least as many transactions. -/
def newPending (receipts : List TransactionReceipt)
    (postSeal : WorkingBlock σ) : List (TransactionReceipt × H256) :=
  receipts.zip (postSeal.transactions.map Transaction.hash)

/-- `syncTransactionQueue` as long as the chain does not change: what was
passed to `appendFromNewPending`, and the client. -/
def syncTransactionQueue (client : PendingClient σ) (call : SyncCall σ) :
    Option (List (TransactionReceipt × H256) × PendingClient σ) :=
  if client.working.isSealed then some ([], client)
  else do
    let (receipts, _, working, _) ← sync call.environment call.clock
      call.fuel call.currentHash client.working call.queue
    if receipts.isEmpty then some ([], { client with working })
    else do
      let client := { client with working, postSeal := working }
      let arguments := newPending receipts client.postSeal
      let (client, _) ← client.appendAll ∅ arguments
      return (arguments, client)

/-- A sequence of calls, with all that was passed on. -/
def run (client : PendingClient σ) : List (SyncCall σ) →
    Option (List (TransactionReceipt × H256) × PendingClient σ)
  | [] => some ([], client)
  | call :: calls => do
      let (arguments, client) ← client.syncTransactionQueue call
      let (more, client) ← client.run calls
      return (arguments ++ more, client)

end

/-! ## One call -/

open WorkingBlock.Syncing

variable {client after : PendingClient σ} {call : SyncCall σ}
  {arguments : List (TransactionReceipt × H256)}

theorem sync_adds {environment : SyncEnvironment σ} {clock : Nat → Bool}
    {fuel : Nat} {currentHash : H256} {block working : WorkingBlock σ}
    {queue left : TransactionQueue} {receipts : List TransactionReceipt}
    {more : Bool}
    (done : sync environment clock fuel currentHash block queue =
      some (receipts, more, working, left)) :
    ∃ added, Adds block { block := working, queue := left, receipts }
      added := by
  unfold sync at done
  split at done
  · cases done
  · obtain ⟨passed, returned, done⟩ := Option.bind_eq_some_iff.mp done
    cases done
    obtain ⟨added, adds⟩ := (Adds.nil queue).passLoop returned
    exact ⟨added, adds⟩

/-- A block whose hashes are told apart, with a receipt for every
transaction, as it is when it was empty once. -/
structure Tracked (block : WorkingBlock σ) : Prop where
  distinct : (block.transactions.map Transaction.hash).Nodup
  known : ∀ hash, hash ∈ block.transactionSet ↔
    hash ∈ block.transactions.map Transaction.hash
  paired : block.receipts.length = block.transactions.length

theorem Tracked.adds {block : WorkingBlock σ} {syncing : Syncing σ}
    {added : List Transaction} (tracked : Tracked block)
    (adds : Adds block syncing added) : Tracked syncing.block := by
  refine ⟨?_, ?_, ?_⟩
  · rw [adds.transactions, List.map_append, List.nodup_append]
    refine ⟨tracked.distinct, adds.distinct, ?_⟩
    intro old member new more same
    obtain ⟨other, among, hash⟩ := List.mem_map.mp more
    have fresh := adds.fresh other among
    rw [tracked.known, hash, ← same] at fresh
    exact fresh member
  · intro hash
    rw [adds.known, tracked.known, adds.transactions, List.map_append,
      List.mem_append]
  · rw [adds.receipts, adds.transactions, List.length_append,
      List.length_append, tracked.paired, adds.counted]

/-- What a call or a run of calls has added and passed on. -/
structure Passes (client after : PendingClient σ)
    (arguments : List (TransactionReceipt × H256))
    (added : List Transaction) (receipts : List TransactionReceipt) :
    Prop where
  transactions : after.working.transactions =
    client.working.transactions ++ added
  blockReceipts :
    after.working.receipts = client.working.receipts ++ receipts
  counted : receipts.length = added.length
  length : arguments.length = added.length
  appended : after.pendingChanged =
    client.pendingChanged ++ arguments.map Prod.snd
  tracked : Tracked after.working

theorem Passes.trans {middle : PendingClient σ}
    {first second : List (TransactionReceipt × H256)}
    {added more : List Transaction}
    {receipts further : List TransactionReceipt}
    (one : Passes client middle first added receipts)
    (two : Passes middle after second more further) :
    Passes client after (first ++ second) (added ++ more)
      (receipts ++ further) := by
  refine ⟨?_, ?_, ?_, ?_, ?_, two.tracked⟩
  · rw [two.transactions, one.transactions, List.append_assoc]
  · rw [two.blockReceipts, one.blockReceipts, List.append_assoc]
  · rw [List.length_append, List.length_append, one.counted, two.counted]
  · rw [List.length_append, List.length_append, one.length, two.length]
  · rw [two.appended, one.appended, List.map_append, List.append_assoc]

/-- Receipts that stand beside the first hashes of a list and beside the last
ones. -/
theorem zip_append_cases {receipts : List TransactionReceipt}
    {old new : List H256} (distinct : (old ++ new).Nodup)
    (same : receipts.zip (old ++ new) = receipts.zip new)
    (counted : receipts.length = new.length) : old = [] ∨ receipts = [] := by
  cases receipts with
  | nil => exact .inr rfl
  | cons receipt receipts =>
      left
      cases old with
      | nil => rfl
      | cons first old =>
          cases new with
          | nil => cases counted
          | cons hash new =>
              rw [List.cons_append, List.zip_cons_cons, List.zip_cons_cons,
                List.cons.injEq, Prod.mk.injEq] at same
              rw [List.cons_append, List.nodup_cons, same.1.2] at distinct
              exact absurd (List.mem_append_right old List.mem_cons_self)
                distinct.1

section

variable [Hashing]

theorem appendAll_eq {changed changed' : Finset H256}
    (done : client.appendAll changed arguments = some (after, changed')) :
    after.working = client.working ∧
      after.pendingChanged =
        client.pendingChanged ++ arguments.map Prod.snd := by
  induction arguments generalizing client changed with
  | nil =>
      cases done
      exact ⟨rfl, by simp⟩
  | cons argument rest induction =>
      obtain ⟨⟨middle, changed''⟩, first, done⟩ :=
        Option.bind_eq_some_iff.mp done
      obtain ⟨⟨filters, _⟩, -, first⟩ := Option.bind_eq_some_iff.mp first
      cases first
      obtain ⟨working, pending⟩ := induction done
      refine ⟨working, ?_⟩
      rw [pending, List.map_cons, List.append_assoc]
      rfl

/-- The call changes nothing, or it passes on what `sync` returns. -/
theorem syncTransactionQueue_cases
    (done : client.syncTransactionQueue call = some (arguments, after)) :
    (client.working.isSealed = true ∧ arguments = [] ∧ after = client) ∨
    ∃ receipts more working left,
      sync call.environment call.clock call.fuel call.currentHash
        client.working call.queue = some (receipts, more, working, left) ∧
      arguments = newPending receipts working ∧
      after.working = working ∧
      after.pendingChanged =
        client.pendingChanged ++ arguments.map Prod.snd := by
  unfold syncTransactionQueue at done
  split at done
  · next sealed =>
      cases done
      exact .inl ⟨sealed, rfl, rfl⟩
  right
  obtain ⟨⟨receipts, more, working, left⟩, synced, done⟩ :=
    Option.bind_eq_some_iff.mp done
  refine ⟨receipts, more, working, left, synced, ?_⟩
  dsimp only at done
  split at done
  · next empty =>
      cases done
      rw [List.isEmpty_iff.mp empty]
      exact ⟨rfl, rfl, by simp⟩
  · obtain ⟨⟨final, changed⟩, appended, done⟩ :=
      Option.bind_eq_some_iff.mp done
    cases done
    obtain ⟨same, pending⟩ := appendAll_eq appended
    exact ⟨rfl, same, pending⟩

/-- The hashes that a call may name wrongly are of transactions that were
pending before: there are none, or nothing is executed. -/
def Harmless (block : WorkingBlock σ) (call : SyncCall σ) : Prop :=
  block.transactions = [] ∨
    ∀ receipts rest, sync call.environment call.clock call.fuel
      call.currentHash block call.queue = some (receipts, rest) → receipts = []

/-- One call passes on the right hashes if and only if it is harmless. -/
theorem syncTransactionQueue_passes (tracked : Tracked client.working)
    (done : client.syncTransactionQueue call = some (arguments, after)) :
    ∃ added receipts, Passes client after arguments added receipts ∧
      (arguments = receipts.zip (added.map Transaction.hash) ↔
        Harmless client.working call) := by
  rcases syncTransactionQueue_cases done with ⟨sealed, none, same⟩ |
      ⟨receipts, more, working, left, synced, passed, same, appended⟩
  · refine ⟨[], [], ?_, ?_⟩
    · rw [none, same]
      exact ⟨by simp, by simp, rfl, rfl, by simp, tracked⟩
    · rw [none]
      refine iff_of_true rfl (.inr ?_)
      intro receipts rest synced
      unfold sync at synced
      rw [if_pos (.inl sealed)] at synced
      cases synced
  obtain ⟨added, adds⟩ := sync_adds synced
  have counted : receipts.length = added.length := adds.counted
  have pending : working.transactions =
      client.working.transactions ++ added := adds.transactions
  have still := tracked.adds adds
  have distinct := still.distinct
  rw [newPending, pending, List.map_append] at passed
  simp only [pending, List.map_append] at distinct
  refine ⟨added, receipts, ⟨?_, ?_, counted, ?_, appended, ?_⟩, ?_, ?_⟩
  · rw [same, pending]
  · rw [same]
    exact adds.receipts
  · rw [passed, List.length_zip, List.length_append, List.length_map,
      List.length_map]
    omega
  · rw [same]
    exact still
  · intro right
    rw [passed] at right
    rcases zip_append_cases distinct right (by simp [counted]) with
        nothing | nothing
    · exact .inl (List.map_eq_nil_iff.mp nothing)
    · refine .inr fun others rest again => ?_
      rw [synced] at again
      cases again
      exact nothing
  · intro harmless
    rw [passed]
    rcases harmless with nothing | nothing
    · rw [nothing]
      rfl
    · rw [nothing receipts _ synced]
      rfl

/-! ## A sequence of calls -/

variable {calls : List (SyncCall σ)}

/-- Each call of the sequence finds the block so that it is harmless. -/
def EveryCall (client : PendingClient σ) : List (SyncCall σ) → Prop
  | [] => True
  | call :: calls =>
      Harmless client.working call ∧
        ∀ arguments after,
          client.syncTransactionQueue call = some (arguments, after) →
            after.EveryCall calls

theorem run_passes (tracked : Tracked client.working)
    (done : client.run calls = some (arguments, after)) :
    ∃ added receipts, Passes client after arguments added receipts ∧
      (arguments = receipts.zip (added.map Transaction.hash) ↔
        client.EveryCall calls) := by
  induction calls generalizing client arguments with
  | nil =>
      cases done
      exact ⟨[], [], ⟨by simp, by simp, rfl, rfl, by simp, tracked⟩,
        iff_of_true rfl trivial⟩
  | cons call calls induction =>
      obtain ⟨⟨first, middle⟩, called, done⟩ :=
        Option.bind_eq_some_iff.mp done
      obtain ⟨⟨second, final⟩, ran, done⟩ := Option.bind_eq_some_iff.mp done
      cases done
      obtain ⟨added, receipts, one, right⟩ :=
        syncTransactionQueue_passes tracked called
      obtain ⟨more, further, two, rest⟩ := induction one.tracked ran
      refine ⟨added ++ more, receipts ++ further, one.trans two, ?_⟩
      have length : (receipts.zip (added.map Transaction.hash)).length =
          first.length := by
        rw [List.length_zip, List.length_map, one.counted, min_self,
          one.length]
      rw [List.map_append, List.zip_append (by simp [one.counted]), EveryCall,
        ← right]
      constructor
      · intro whole
        obtain ⟨here, there⟩ := List.append_inj whole length.symm
        refine ⟨here, fun others other again => ?_⟩
        rw [called] at again
        cases again
        exact rest.mp there
      · intro every
        rw [← every.1, ← rest.mpr (every.2 _ _ called)]

/-- The transactions that the block has got since. -/
def newTransactions (client after : PendingClient σ) : List Transaction :=
  after.working.transactions.drop client.working.transactions.length

def newReceipts (client after : PendingClient σ) : List TransactionReceipt :=
  after.working.receipts.drop client.working.receipts.length

/-- The filter gets the hashes of the new transactions, and each receipt comes
with the hash of its own. -/
structure NamesAdded (client after : PendingClient σ)
    (arguments : List (TransactionReceipt × H256)) : Prop where
  hashes : after.pendingChanged = client.pendingChanged ++
    (newTransactions client after).map Transaction.hash
  once : (after.pendingChanged.drop client.pendingChanged.length).Nodup
  own : arguments = (newReceipts client after).zip
    ((newTransactions client after).map Transaction.hash)

/-- The new transactions are named if and only if every call executes nothing
or finds nothing pending. -/
theorem pendingChanged_names_iff (tracked : Tracked client.working)
    (done : client.run calls = some (arguments, after)) :
    NamesAdded client after arguments ↔ client.EveryCall calls := by
  obtain ⟨added, receipts, passes, right⟩ := run_passes tracked done
  have transactions : newTransactions client after = added := by
    rw [newTransactions, passes.transactions, List.drop_left]
  have new : newReceipts client after = receipts := by
    rw [newReceipts, passes.blockReceipts, List.drop_left]
  rw [← right]
  constructor
  · intro names
    rw [names.own, transactions, new]
  · intro same
    have hashes : arguments.map Prod.snd = added.map Transaction.hash := by
      rw [same]
      exact List.map_snd_zip (by simp [passes.counted])
    have distinct := passes.tracked.distinct
    rw [passes.transactions, List.map_append] at distinct
    refine ⟨?_, ?_, ?_⟩
    · rw [passes.appended, hashes, transactions]
    · rw [passes.appended, hashes, List.drop_left]
      exact (List.nodup_append.mp distinct).2.1
    · rw [transactions, new, same]

end

section Sample

attribute [local instance] filterSampleHashing

/-- Every execution succeeds. -/
def goodEnvironment : SyncEnvironment Unit where
  execution _ _ := (.ok ⟨.statusCode 1, 21000, zeroHash 256, []⟩, ())
  ask _ := 0

def clientSample : PendingClient Unit where
  working := emptyBlock
  postSeal := emptyBlock

theorem clientSample_tracked : Tracked clientSample.working :=
  ⟨List.nodup_nil, by simp [clientSample, emptyBlock], rfl⟩

/-- A call that finds the transactions of these hashes in the queue. -/
def callSample (hashes : List Nat) : SyncCall Unit where
  environment := goodEnvironment
  clock _ := true
  fuel := 1
  currentHash := zeroHash 32
  queue := { current := hashes.map fun hash =>
    TransactionQueue.transactionSample hash 1 hash 1 }

theorem pendingChanged_names_iff_sample :
    ∃ arguments after,
      clientSample.run [callSample [1, 2]] = some (arguments, after) ∧
      NamesAdded clientSample after arguments := by
  have done : ∃ arguments after,
      clientSample.run [callSample [1, 2]] = some (arguments, after) :=
    ⟨_, _, rfl⟩
  obtain ⟨arguments, after, done⟩ := done
  exact ⟨arguments, after, done,
    (pendingChanged_names_iff clientSample_tracked done).mpr
      ⟨.inl rfl, fun _ _ _ => trivial⟩⟩

/-- The second call executes the second transaction and names the first. -/
theorem pendingChanged_names_first :
    ∃ arguments after,
      clientSample.run [callSample [1], callSample [1, 2]] =
        some (arguments, after) ∧
      after.pendingChanged = [hashOfNat 1, hashOfNat 1] ∧
      ¬ NamesAdded clientSample after arguments := by
  refine ⟨_, _, rfl, rfl, fun names => ?_⟩
  have once := names.once
  revert once
  decide

end Sample

end PendingClient

end Aecmio
