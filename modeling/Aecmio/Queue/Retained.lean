import Aecmio.Queue.Bounded

/-!
# Transactions do not vanish

A transaction that was imported stays in one of the two parts of the queue
until a call takes it away: it is replaced, evicted at a limit, dropped, or
the queue is cleared.  Setting transactions back to the future and promoting
them only moves them.
-/

namespace Aecmio

namespace TransactionQueue

variable {queue queue' : TransactionQueue} {transaction other : Transaction}
  {layout : Layout}

/-! ## What a queue holds -/

/-- The transactions of both parts. -/
def held (queue : TransactionQueue) : List Transaction :=
  queue.current ++
    queue.future.entries.flatMap fun entry => entry.2.transactions

theorem Filed.mem_entries (filed : Filed queue) :
    (∃ entry ∈ queue.future.entries, transaction ∈ entry.2.transactions) ↔
      queue.Waits transaction := by
  constructor
  · rintro ⟨entry, member, listed⟩
    have found : queue.future.lookup entry.1 = some entry.2 :=
      AList.mem_lookup_iff.mpr member
    apply filed.waits_of_mem entry.1
    rw [BySender.get_of_lookup found]
    exact listed
  · intro waiting
    have found := BySender.lookup_of_mem waiting
    exact ⟨⟨transaction.sender, _⟩, AList.mem_lookup_iff.mp found, waiting⟩

theorem Consistent.mem_held (consistent : Consistent queue) :
    transaction ∈ queue.held ↔ queue.Holds transaction := by
  unfold held Holds
  rw [List.mem_append, List.mem_flatMap, consistent.filed.mem_entries]

/-- No transaction is held twice. -/
theorem Consistent.nodup_held (consistent : Consistent queue) :
    queue.held.Nodup := by
  have filed := consistent.filed
  unfold held
  refine List.nodup_append.mpr ⟨consistent.indexed.nodup, ?_, ?_⟩
  · refine List.nodup_flatMap.mpr ⟨fun entry _ => entry.2.nodup, ?_⟩
    have keys := List.nodupKeys_iff_pairwise.mp queue.future.nodupKeys
    refine keys.imp_of_mem ?_
    intro first second firstMember secondMember different shared inFirst
      inSecond
    have firstFound : queue.future.lookup first.1 = some first.2 :=
      AList.mem_lookup_iff.mpr firstMember
    have secondFound : queue.future.lookup second.1 = some second.2 :=
      AList.mem_lookup_iff.mpr secondMember
    apply different
    rw [← (filed.senders _ _ firstFound).2 shared inFirst,
      ← (filed.senders _ _ secondFound).2 shared inSecond]
  · intro first member second listed same
    subst same
    have waiting := filed.mem_entries.mp (List.mem_flatMap.mp listed)
    exact consistent.apart first member first waiting rfl rfl

theorem Consistent.perm_held (consistent : Consistent queue)
    (consistent' : Consistent queue')
    (same : ∀ other, queue'.Holds other ↔ queue.Holds other) :
    queue'.held.Perm queue.held := by
  apply (List.perm_ext_iff_of_nodup consistent'.nodup_held
    consistent.nodup_held).mpr
  intro other
  rw [consistent'.mem_held, consistent.mem_held]
  exact same other

/-! ## Evictions -/

/-- The transaction that a round of the loop over `m_futureLimit` drops. -/
def futureEnd (layout : Layout) (queue : TransactionQueue) :
    Option Transaction := do
  let nonces ← queue.future.lookup (layout.first queue.future)
  nonces.transactions.getLast?

/-- The transactions that the loop over `m_futureLimit` drops. -/
def futureEvicted (layout : Layout) : Nat → TransactionQueue →
    List Transaction
  | 0, _ => []
  | fuel + 1, queue =>
      if queue.futureLimit < queue.futureSize then
        (queue.futureEnd layout).toList ++
          ((queue.dropFutureEnd layout).map (futureEvicted layout fuel)).getD []
      else []

/-- The transactions that the loop over `m_limit` drops. -/
def currentEvicted : Nat → TransactionQueue → List Transaction
  | 0, _ => []
  | fuel + 1, queue =>
      if queue.limit.toNat < queue.current.length then
        match queue.current.getLast? with
        | some last =>
            last :: ((queue.remove last.hash).map (currentEvicted fuel)).getD []
        | none => []
      else []

/-- The transactions that a successful import evicts. -/
def importEvicted (layout : Layout) (queue : TransactionQueue)
    (transaction : Transaction) : Option (List Transaction) := do
  let replaced ← ← queue.replaceCurrent transaction
  let cleared ← replaced.replaceFuture transaction
  let entered ← cleared.enter layout transaction
  let promoted ← entered.promote layout transaction
  let inserted ← cleared.insertCurrent layout transaction
  return promoted.futureEvicted layout promoted.futureSize.toNat ++
    inserted.currentEvicted inserted.current.length

/-- The transactions that a call evicts because there are more than a limit
allows. -/
def evicted (layout : Layout) (queue : TransactionQueue) :
    Request → List Transaction
  | .import_ transaction ik =>
      match queue.import_ layout transaction ik with
      | some (.success, _) => (queue.importEvicted layout transaction).getD []
      | _ => []
  | .dropGood transaction =>
      ((queue.promote layout transaction).map fun promoted =>
        promoted.futureEvicted layout promoted.futureSize.toNat).getD []
  | _ => []

theorem Filed.waits_dropFutureEnd (filed : Filed queue)
    (dropped : queue.dropFutureEnd layout = some queue')
    (waiting : queue.Waits transaction) :
    queue'.Waits transaction ∨
      queue.futureEnd layout = some transaction := by
  obtain ⟨nonces, found, dropped⟩ := Option.bind_eq_some_iff.mp dropped
  obtain ⟨last, ending, dropped⟩ := Option.bind_eq_some_iff.mp dropped
  cases dropped
  unfold Waits at waiting ⊢
  by_cases here : transaction.sender = layout.first queue.future
  · rw [here, BySender.get_of_lookup found] at waiting
    by_cases same : transaction.nonce = last.nonce
    · right
      have member := List.mem_of_getLast? ending
      rw [NonceMap.eq_of_nonce waiting member same]
      unfold futureEnd
      rw [found]
      exact ending
    · left
      rw [here, BySender.get_put]
      exact NonceMap.mem_erase.mpr ⟨waiting, same⟩
  · left
    rw [BySender.get_put_ne here]
    exact waiting

/-- What waits before the loop over `m_futureLimit` waits after it or is
evicted. -/
theorem Filed.waits_trimFuture (filed : Filed queue) {fuel : Nat}
    (ran : queue.trimFuture layout fuel = some queue')
    (waiting : queue.Waits transaction) :
    queue'.Waits transaction ∨
      transaction ∈ queue.futureEvicted layout fuel := by
  induction fuel generalizing queue with
  | zero =>
      unfold TransactionQueue.trimFuture at ran
      split at ran
      · cases ran
      · cases ran
        exact .inl waiting
  | succ fuel induction =>
      unfold TransactionQueue.trimFuture at ran
      split at ran
      next exceeds =>
        obtain ⟨middle, first, filedMiddle, -⟩ :=
          filed.dropFutureEnd layout exceeds
        unfold futureEvicted
        rw [if_pos exceeds, first]
        rw [first] at ran
        rcases filed.waits_dropFutureEnd first waiting with stays | ending
        · exact (induction filedMiddle ran stays).imp id
            (List.mem_append_right _)
        · right
          rw [ending]
          exact List.mem_append_left _ List.mem_cons_self
      next =>
        cases ran
        exact .inl waiting

/-- What is current before the loop over `m_limit` is current after it or is
evicted. -/
theorem Consistent.mem_trimCurrent (consistent : Consistent queue)
    {fuel : Nat} (ran : queue.trimCurrent fuel = some queue')
    (member : transaction ∈ queue.current) :
    transaction ∈ queue'.current ∨
      transaction ∈ queue.currentEvicted fuel := by
  induction fuel generalizing queue with
  | zero =>
      unfold TransactionQueue.trimCurrent at ran
      split at ran
      · cases ran
      · cases ran
        exact .inl member
  | succ fuel induction =>
      unfold TransactionQueue.trimCurrent at ran
      split at ran
      next exceeds =>
        obtain ⟨last, ending, ran⟩ := Option.bind_eq_some_iff.mp ran
        obtain ⟨middle, removed, consistentMiddle, removes⟩ :=
          consistent.remove last.hash
        unfold currentEvicted
        rw [if_pos exceeds, ending]
        simp only [removed, Option.map_some, Option.getD_some]
        rw [removed] at ran
        by_cases same : transaction = last
        · right
          rw [same]
          exact List.mem_cons_self
        · have stays : transaction ∈ middle.current := by
            refine (removes.current transaction).mpr ⟨member, ?_⟩
            intro hash
            exact same (consistent.indexed.eq_of_hash member
              (List.mem_of_getLast? ending) hash)
          exact (induction consistentMiddle ran stays).imp id
            (List.mem_cons_of_mem _)
      next =>
        cases ran
        exact .inl member

/-! ## Calls -/

/-- What may take a transaction away from a queue. -/
inductive Takes (layout : Layout) (queue : TransactionQueue)
    (transaction : Transaction) : Request → Prop where
  | replaced (other : Transaction) (ik : IfDropped)
      (queue' : TransactionQueue)
      (imported : queue.import_ layout other ik = some (.success, queue'))
      (sender : other.sender = transaction.sender)
      (nonce : other.nonce = transaction.nonce)
      (bids : transaction.gasPrice ≤ other.gasPrice) :
      Takes layout queue transaction (.import_ other ik)
  | evicted (request : Request)
      (member : transaction ∈ queue.evicted layout request) :
      Takes layout queue transaction request
  | drop : Takes layout queue transaction (.drop transaction.hash)
  | dropGood (other : Transaction) (same : other.hash = transaction.hash) :
      Takes layout queue transaction (.dropGood other)
  | clear : Takes layout queue transaction .clear

theorem Removes.holds {txHash : H256} (removes : Removes txHash queue queue')
    (held : queue.Holds transaction) (other : transaction.hash ≠ txHash) :
    queue'.Holds transaction :=
  held.imp (fun member => (removes.current transaction).mpr ⟨member, other⟩)
    (removes.discards.waits transaction).mpr

/-- A promotion moves transactions. -/
theorem Consistent.moves (consistent : Consistent queue)
    (distinct : queue.HashesDistinct) (layout : Layout)
    (transaction : Transaction) :
    ∃ promoted, queue.promote layout transaction = some promoted ∧
      Consistent promoted ∧
      ∀ other, promoted.Holds other ↔ queue.Holds other := by
  obtain ⟨promoted, promotes, consistent', moves, keeps, -⟩ :=
    consistent.promote distinct layout transaction
  refine ⟨promoted, promotes, consistent', ?_⟩
  intro other
  exact ⟨moves.holds other, keeps other⟩

/-- Setting back and promoting lose and double nothing. -/
structure Moves (queue : TransactionQueue) : Prop where
  nodup : queue.held.Nodup
  setFuture : ∀ txHash, (queue.setFuture txHash).held.Perm queue.held
  promote : ∀ layout transaction, ∃ promoted,
    queue.promote layout transaction = some promoted ∧
      promoted.held.Perm queue.held

theorem Consistent.movesAll (consistent : Consistent queue)
    (distinct : queue.HashesDistinct) : Moves queue := by
  refine ⟨consistent.nodup_held, ?_, ?_⟩
  · intro txHash
    obtain ⟨consistent', -, -, holds⟩ := consistent.setFuture txHash
    exact consistent.perm_held consistent' holds
  · intro layout transaction
    obtain ⟨promoted, promotes, consistent', holds⟩ :=
      consistent.moves distinct layout transaction
    exact ⟨promoted, promotes, consistent.perm_held consistent' holds⟩

theorem Consistent.holds_trimFuture (consistent : Consistent queue)
    {fuel : Nat} (ran : queue.trimFuture layout fuel = some queue')
    (enough : queue.futureSize.toNat ≤ fuel)
    (held : queue.Holds transaction) :
    queue'.Holds transaction ∨
      transaction ∈ queue.futureEvicted layout fuel := by
  obtain ⟨trimmed, ran', -, same, -⟩ :=
    consistent.filed.trimFuture layout fuel enough
  rw [ran] at ran'
  cases ran'
  rcases held with member | waiting
  · left
    left
    rw [same.current]
    exact member
  · exact (consistent.filed.waits_trimFuture ran waiting).imp .inr id

theorem Consistent.holds_trimCurrent (consistent : Consistent queue)
    {fuel : Nat} (ran : queue.trimCurrent fuel = some queue')
    (held : queue.Holds transaction) :
    queue'.Holds transaction ∨
      transaction ∈ queue.currentEvicted fuel := by
  rcases held with member | waiting
  · exact (consistent.mem_trimCurrent ran member).imp .inl id
  · left
    right
    obtain ⟨future, -⟩ := trimCurrent_future ran
    unfold Waits
    rw [future]
    exact waiting

/-- Entering a transaction and promoting those that follow it moves the
others. -/
theorem Clears.moves {cleared : TransactionQueue}
    (clears : Clears queue transaction cleared) (layout : Layout) :
    ∃ entered promoted,
      cleared.enter layout transaction = some entered ∧
      entered.promote layout transaction = some promoted ∧
      Moves entered ∧ entered.held.Perm (transaction :: cleared.held) ∧
      Consistent promoted ∧ ∀ other, promoted.Holds other ↔
        other = transaction ∨ cleared.Holds other := by
  obtain ⟨entered, enters, consistentEntered, distinctEntered, -, -, holds,
    -⟩ := clears.consistent.enterOne clears.distinct layout clears.fresh
  obtain ⟨promoted, promotes, consistentPromoted, moves⟩ :=
    consistentEntered.moves distinctEntered layout transaction
  have new : transaction ∉ cleared.held := by
    intro held
    exact clears.fresh.nonce transaction
      (clears.consistent.mem_held.mp held) rfl rfl
  refine ⟨entered, promoted, enters, promotes,
    consistentEntered.movesAll distinctEntered, ?_, consistentPromoted, ?_⟩
  · apply (List.perm_ext_iff_of_nodup consistentEntered.nodup_held
      (List.nodup_cons.mpr ⟨new, clears.consistent.nodup_held⟩)).mpr
    intro other
    rw [consistentEntered.mem_held, holds, List.mem_cons,
      clears.consistent.mem_held]
  · intro other
    rw [moves, holds]

/-- The new transaction and all that is not replaced are held after an import,
unless they are evicted. -/
theorem Stages.holds (stages : Stages layout queue transaction queue')
    (kept : other = transaction ∨ queue.Holds other ∧
      ¬ (other.sender = transaction.sender ∧
        other.nonce = transaction.nonce)) :
    queue'.Holds other ∨
      ∃ gone, queue.importEvicted layout transaction = some gone ∧
        other ∈ gone := by
  obtain ⟨replaced, cleared, entered, promoted, trimmed, replaces, erases,
    clears, enters, promotes, trims, cuts⟩ := stages
  obtain ⟨entered', promoted', enters', promotes', -, -, consistent, holds⟩ :=
    clears.moves layout
  rw [enters] at enters'
  cases enters'
  rw [promotes] at promotes'
  cases promotes'
  obtain ⟨entered', promoted', trimmed', enters', promotes', trims',
    consistentTrimmed, inserted⟩ := clears.insertCurrent layout
  rw [enters] at enters'
  cases enters'
  rw [promotes] at promotes'
  cases promotes'
  rw [trims] at trims'
  cases trims'
  have evicts : queue.importEvicted layout transaction = some
      (promoted.futureEvicted layout promoted.futureSize.toNat ++
        TransactionQueue.currentEvicted trimmed.current.length { trimmed with
          known := insert transaction.hash trimmed.known }) := by
    unfold importEvicted
    simp only [Option.bind_eq_bind, Option.bind_some, replaces, erases, enters,
      promotes, inserted]
    rfl
  have before : promoted.Holds other := by
    rw [holds, clears.holds]
    exact kept
  rcases consistent.holds_trimFuture trims (Nat.le_refl _) before with
    held | gone
  · have consistentInserted := consistentTrimmed.setHashes
      (insert transaction.hash trimmed.known) trimmed.dropped
    rcases consistentInserted.holds_trimCurrent cuts held with held | gone
    · exact .inl held
    · exact .inr ⟨_, evicts, List.mem_append_right _ gone⟩
  · exact .inr ⟨_, evicts, List.mem_append_left _ gone⟩

theorem run_cons_iff {request : Layout × Request}
    {requests : List (Layout × Request)} :
    queue.run (request :: requests) = some queue' ↔
      ∃ middle, queue.serve request.1 request.2 = some middle ∧
        middle.run requests = some queue' := by
  rw [TransactionQueue.run, List.foldlM_cons]
  exact Option.bind_eq_some_iff

/-- A call of a run takes a transaction away. -/
def TakesIn (queue : TransactionQueue) (transaction : Transaction)
    (requests : List (Layout × Request)) : Prop :=
  ∃ before layout request after middle,
    requests = before ++ (layout, request) :: after ∧
      queue.run before = some middle ∧ Takes layout middle transaction request

theorem TakesIn.cons {request : Layout × Request}
    {requests : List (Layout × Request)}
    (served : queue.serve request.1 request.2 = some queue')
    (takes : TakesIn queue' transaction requests) :
    TakesIn queue transaction (request :: requests) := by
  obtain ⟨before, layout, taking, after, middle, split, ran, takes⟩ := takes
  refine ⟨request :: before, layout, taking, after, middle, ?_,
    run_cons_iff.mpr ⟨queue', served, ran⟩, takes⟩
  rw [split, List.cons_append]

end TransactionQueue

end Aecmio
