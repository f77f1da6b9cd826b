import Aecmio.Queue.Indexing

/-!
# Runs of the transaction queue

Whatever the order in which transactions are imported, promoted, set back and
dropped, every call returns and leaves the containers in step.
-/

namespace Aecmio

namespace TransactionQueue

variable {queue queue' : TransactionQueue} {layout : Layout}
  {transaction : Transaction}

/-! ## Setting back -/

theorem lookup_foldl_erase (moved : List Transaction)
    (index : AList fun _ : H256 => Transaction) (txHash : H256)
    (found : Transaction) :
    (moved.foldl (fun index other => index.erase other.hash) index).lookup
      txHash = some found ↔
      index.lookup txHash = some found ∧
        ∀ other ∈ moved, other.hash ≠ txHash := by
  induction moved generalizing index with
  | nil => simp
  | cons first rest induction =>
      rw [List.foldl_cons, induction]
      by_cases same : txHash = first.hash
      · subst same
        simp
      · rw [AList.lookup_erase_ne same]
        simp [Ne.symm same]

/-- The transactions that `setFuture` moves. -/
def setBack (queue : TransactionQueue) (transaction : Transaction) :
    List Transaction :=
  ((queue.currentByAddressAndNonce.get transaction.sender).filter fun other =>
    transaction.nonce ≤ other.nonce).transactions

theorem Indexed.mem_setBack (indexed : Indexed queue) {other : Transaction} :
    other ∈ queue.setBack transaction ↔ other ∈ queue.current ∧
      other.sender = transaction.sender ∧
        transaction.nonce ≤ other.nonce := by
  rw [setBack, NonceMap.mem_filter, decide_eq_true_eq]
  constructor
  · intro both
    have sender := indexed.sender_of_mem both.1
    refine ⟨(indexed.bySender other).mpr ?_, sender, both.2⟩
    rw [sender]
    exact both.1
  · intro all
    obtain ⟨current, sender, nonce⟩ := all
    refine ⟨?_, nonce⟩
    rw [← sender]
    exact (indexed.bySender other).mp current

theorem Indexed.mem_foldl_erase (indexed : Indexed queue)
    (moved : List Transaction) {other : Transaction} :
    other ∈ moved.foldl List.erase queue.current ↔
      other ∈ queue.current ∧ other ∉ moved := by
  rw [← List.diff_eq_foldl]
  exact indexed.nodup.mem_sdiff_iff

/-- The current part after a suffix of nonces is taken away. -/
theorem Indexed.setBack (indexed : Indexed queue)
    (current : queue'.current =
      (queue.setBack transaction).foldl List.erase queue.current)
    (currentByHash : queue'.currentByHash =
      (queue.setBack transaction).foldl (fun index other =>
        index.erase other.hash) queue.currentByHash)
    (currentByAddressAndNonce : queue'.currentByAddressAndNonce =
      queue.currentByAddressAndNonce.put transaction.sender
        ((queue.currentByAddressAndNonce.get transaction.sender).filter
          fun other => other.nonce < transaction.nonce)) :
    Indexed queue' := by
  constructor
  · rw [current, ← List.diff_eq_foldl]
    exact indexed.nodup.diff
  · intro txHash other
    rw [currentByHash, lookup_foldl_erase, indexed.byHash, current,
      indexed.mem_foldl_erase]
    constructor
    · intro both
      obtain ⟨⟨member, hash⟩, away⟩ := both
      exact ⟨⟨member, fun moved => away other moved hash⟩, hash⟩
    · intro both
      obtain ⟨⟨member, stays⟩, hash⟩ := both
      refine ⟨⟨member, hash⟩, ?_⟩
      intro moved movedMember movedHash
      have movedCurrent := (indexed.mem_setBack.mp movedMember).1
      have equal := indexed.eq_of_hash movedCurrent member
        (movedHash.trans hash.symm)
      rw [equal] at movedMember
      exact stays movedMember
  · intro other
    rw [current, indexed.mem_foldl_erase, indexed.mem_setBack,
      currentByAddressAndNonce]
    by_cases same : other.sender = transaction.sender
    · rw [same, BySender.get_put, NonceMap.mem_filter, decide_eq_true_eq,
        ← same, ← indexed.bySender other]
      constructor
      · intro both
        refine ⟨both.1, ?_⟩
        by_contra above
        exact both.2 ⟨both.1, rfl, BitVec.not_lt.mp above⟩
      · intro both
        refine ⟨both.1, ?_⟩
        intro moved
        exact absurd both.2 (BitVec.not_lt.mpr moved.2.2)
    · rw [BySender.get_put_ne same, ← indexed.bySender other]
      refine ⟨And.left, fun member => ⟨member, ?_⟩⟩
      intro moved
      exact same moved.2.1
  · intro sender nonces found
    rw [currentByAddressAndNonce] at found
    by_cases same : sender = transaction.sender
    · subst same
      obtain ⟨rfl, filled⟩ := BySender.lookup_put found
      refine ⟨filled, ?_⟩
      intro other member
      exact indexed.sender_of_mem (NonceMap.mem_filter.mp member).1
    · rw [BySender.lookup_put_ne same] at found
      exact indexed.senders sender nonces found

/-- The future part after they are entered there. -/
theorem Consistent.setBack_filed (consistent : Consistent queue)
    (member : transaction ∈ queue.current)
    (future : queue'.future = queue.future.insert transaction.sender
      ((queue.setBack transaction).foldl NonceMap.emplace
        (queue.future.get transaction.sender)))
    (size : queue'.futureSize = queue.futureSize +
      UInt32.ofNat (queue.setBack transaction).length) :
    Filed queue' ∧ ∀ other, queue'.Waits other ↔
      queue.Waits other ∨ other ∈ queue.setBack transaction := by
  have indexed := consistent.indexed
  have filed := consistent.filed
  have fresh : ∀ other ∈ (queue.future.get transaction.sender).transactions,
      ∀ entered ∈ queue.setBack transaction,
        other.nonce ≠ entered.nonce := by
    intro other waiting entered enteredMember
    obtain ⟨current, sender, -⟩ := indexed.mem_setBack.mp enteredMember
    have otherSender := filed.sender_of_mem _ waiting
    refine (consistent.apart entered current other
      (filed.waits_of_mem _ waiting) ?_).symm
    rw [sender, otherSender]
  have ordered : (queue.setBack transaction).Pairwise fun first second =>
      first.nonce ≠ second.nonce := by
    refine (NonceMap.ordered _).imp ?_
    intro first second lower
    exact BitVec.ne_of_lt lower
  obtain ⟨members, length⟩ := NonceMap.emplaceAll (queue.setBack transaction)
    (queue.future.get transaction.sender) fresh ordered
  have memberMoved : transaction ∈ queue.setBack transaction :=
    indexed.mem_setBack.mpr ⟨member, rfl, BitVec.le_refl _⟩
  refine ⟨⟨?_, ?_⟩, ?_⟩
  · intro sender nonces found
    rw [future] at found
    by_cases same : sender = transaction.sender
    · subst same
      rw [AList.lookup_insert, Option.some.injEq] at found
      rw [← found]
      constructor
      · have there := (members transaction).mpr (.inr memberMoved)
        rw [NonceMap.isEmpty, List.isEmpty_eq_false_iff]
        exact List.ne_nil_of_mem there
      · intro other otherMember
        rcases (members other).mp otherMember with old | moved
        · exact filed.sender_of_mem _ old
        · exact (indexed.mem_setBack.mp moved).2.1
    · rw [AList.lookup_insert_ne same] at found
      exact filed.senders sender nonces found
  · have counted := BySender.count_insert queue.future transaction.sender
      ((queue.setBack transaction).foldl NonceMap.emplace
        (queue.future.get transaction.sender))
    rw [length] at counted
    have total : queue'.future.count = queue.future.count +
        (queue.setBack transaction).length := by
      rw [future]
      omega
    rw [size, filed.size, total, UInt32.ofNat_add]
  · intro other
    unfold Waits
    rw [future]
    by_cases same : other.sender = transaction.sender
    · rw [same, BySender.get_insert, members]
    · rw [BySender.get_insert_ne same]
      refine ⟨.inl, fun cases_ => cases_.elim id ?_⟩
      intro moved
      exact absurd (indexed.mem_setBack.mp moved).2.1 same

theorem Consistent.setFuture (consistent : Consistent queue)
    (txHash : H256) :
    Consistent (queue.setFuture txHash) ∧
      SameLimits queue (queue.setFuture txHash) ∧
      (queue.setFuture txHash).current.Sublist queue.current ∧
      ∀ other, (queue.setFuture txHash).Holds other ↔ queue.Holds other := by
  have indexed := consistent.indexed
  cases found : queue.currentByHash.lookup txHash with
  | none =>
      have same : queue.setFuture txHash = queue := by
        rw [TransactionQueue.setFuture, found]
      rw [same]
      exact ⟨consistent, ⟨rfl, rfl, rfl, rfl⟩, .refl _, fun _ => Iff.rfl⟩
  | some transaction =>
      obtain ⟨member, rfl⟩ := (indexed.byHash _ _).mp found
      generalize moved : queue.setFuture transaction.hash = queue'
      rw [TransactionQueue.setFuture, found] at moved
      have current : queue'.current =
          (queue.setBack transaction).foldl List.erase queue.current := by
        rw [← moved]
        rfl
      have indexedNew : Indexed queue' := by
        refine indexed.setBack current ?_ ?_
        · rw [← moved]
          rfl
        · rw [← moved]
      have future : queue'.future = queue.future.insert transaction.sender
          ((queue.setBack transaction).foldl NonceMap.emplace
            (queue.future.get transaction.sender)) := by
        rw [← moved]
        rfl
      have size : queue'.futureSize = queue.futureSize +
          UInt32.ofNat (queue.setBack transaction).length := by
        rw [← moved]
        rfl
      obtain ⟨filedNew, waits⟩ :=
        consistent.setBack_filed member future size
      refine ⟨⟨indexedNew, filedNew, ?_⟩, ?_, ?_, ?_⟩
      · intro first firstMember second waiting sender nonce
        rw [current, indexed.mem_foldl_erase] at firstMember
        rcases (waits second).mp waiting with old | new
        · exact consistent.apart first firstMember.1 second old sender nonce
        · have secondCurrent := (indexed.mem_setBack.mp new).1
          rw [← indexed.eq_of_nonce firstMember.1 secondCurrent sender nonce]
            at new
          exact firstMember.2 new
      · rw [← moved]
        exact ⟨rfl, rfl, rfl, rfl⟩
      · rw [current, ← List.diff_eq_foldl]
        exact List.diff_sublist _ _
      · intro other
        unfold Holds
        rw [waits, current, indexed.mem_foldl_erase]
        constructor
        · intro cases_
          rcases cases_ with ⟨old, -⟩ | waiting | new
          · exact .inl old
          · exact .inr waiting
          · exact .inl (indexed.mem_setBack.mp new).1
        · intro cases_
          by_cases new : other ∈ queue.setBack transaction
          · exact .inr (.inr new)
          · exact cases_.imp (fun old => ⟨old, new⟩) .inl

/-! ## Discarding current transactions -/

/-- Some current transactions are gone, with their known hashes. -/
structure Discards (queue queue' : TransactionQueue) : Prop where
  current : queue'.current.Sublist queue.current
  known : ∀ hash, hash ∈ queue'.known ↔ hash ∈ queue.known ∧
    ∀ other ∈ queue.current, other.hash = hash → other ∈ queue'.current
  future : queue'.future = queue.future
  futureSize : queue'.futureSize = queue.futureSize
  limit : queue'.limit = queue.limit
  futureLimit : queue'.futureLimit = queue.futureLimit
  dropped : queue'.dropped = queue.dropped

namespace Discards

theorem refl (queue : TransactionQueue) : Discards queue queue := by
  refine ⟨.refl _, ?_, rfl, rfl, rfl, rfl, rfl⟩
  intro hash
  exact ⟨fun member => ⟨member, fun _ present _ => present⟩, And.left⟩

theorem trans {queue'' : TransactionQueue} (first : Discards queue queue')
    (second : Discards queue' queue'') : Discards queue queue'' := by
  refine ⟨second.current.trans first.current, ?_,
    second.future.trans first.future,
    second.futureSize.trans first.futureSize,
    second.limit.trans first.limit,
    second.futureLimit.trans first.futureLimit,
    second.dropped.trans first.dropped⟩
  intro hash
  rw [second.known, first.known]
  constructor
  · intro both
    obtain ⟨⟨known, stays⟩, staysLater⟩ := both
    refine ⟨known, ?_⟩
    intro other member same
    exact staysLater other (stays other member same) same
  · intro both
    obtain ⟨known, stays⟩ := both
    refine ⟨⟨known, ?_⟩, ?_⟩
    · intro other member same
      exact second.current.subset (stays other member same)
    · intro other member same
      exact stays other (first.current.subset member) same

theorem waits (discards : Discards queue queue') (other : Transaction) :
    queue'.Waits other ↔ queue.Waits other := by
  unfold Waits
  rw [discards.future]

theorem holds (discards : Discards queue queue') (other : Transaction)
    (held : queue'.Holds other) : queue.Holds other :=
  held.imp (fun member => discards.current.subset member)
    (discards.waits other).mp

end Discards

theorem Removes.discards {txHash : H256}
    (removes : Removes txHash queue queue') : Discards queue queue' := by
  refine ⟨removes.sublist, ?_, removes.future, removes.futureSize,
    removes.limit, removes.futureLimit, removes.dropped⟩
  intro hash
  rw [removes.known]
  refine and_congr_right fun _ => ?_
  constructor
  · intro kept other member same
    refine (removes.current other).mpr ⟨member, ?_⟩
    intro equal
    exact kept ⟨same.symm.trans equal, other, member, equal⟩
  · intro stays both
    obtain ⟨rfl, other, member, same⟩ := both
    exact ((removes.current other).mp (stays other member same)).2 same

namespace Consistent

theorem remove (consistent : Consistent queue) (txHash : H256) :
    ∃ queue', queue.remove txHash = some queue' ∧ Consistent queue' ∧
      Removes txHash queue queue' := by
  obtain ⟨queue', removed, indexed, removes⟩ :=
    consistent.indexed.remove txHash
  refine ⟨queue', removed, ⟨indexed, consistent.filed.same removes.future
    removes.futureSize, ?_⟩, removes⟩
  intro first member second waiting
  exact consistent.apart first (removes.sublist.subset member) second
    ((removes.discards.waits second).mp waiting)

/-- The loop over the limit ends. -/
theorem trimCurrent (consistent : Consistent queue) (fuel : Nat)
    (enough : queue.current.length ≤ fuel) :
    ∃ queue', queue.trimCurrent fuel = some queue' ∧ Consistent queue' ∧
      Discards queue queue' := by
  induction fuel generalizing queue with
  | zero =>
      refine ⟨queue, if_neg ?_, consistent, .refl queue⟩
      omega
  | succ fuel induction =>
      unfold TransactionQueue.trimCurrent
      split
      · rename_i exceeds
        cases ending : queue.current.getLast? with
        | none =>
            rw [List.getLast?_eq_none_iff] at ending
            simp [ending] at exceeds
        | some last =>
            have member := List.mem_of_getLast? ending
            obtain ⟨middle, removed, consistentMiddle, removes⟩ :=
              consistent.remove last.hash
            have shorter := removes.length ⟨last, member, rfl⟩
            obtain ⟨queue', rest, consistentLast, discards⟩ :=
              induction consistentMiddle (by omega)
            refine ⟨queue', ?_, consistentLast,
              removes.discards.trans discards⟩
            simp only [Option.bind_eq_bind, Option.bind_some, removed]
            exact rest
      · exact ⟨queue, rfl, consistent, .refl queue⟩

end Consistent

/-! ## Importing -/

/-- Nothing that is held has the transaction's hash, or its sender and
nonce. -/
structure Fresh (queue : TransactionQueue) (transaction : Transaction) :
    Prop where
  hash : ∀ other, queue.Holds other → other.hash ≠ transaction.hash
  nonce : ∀ other, queue.Holds other → other.sender = transaction.sender →
    other.nonce ≠ transaction.nonce

theorem HashesDistinct.enter (distinct : queue.HashesDistinct)
    (newHash : ∀ other, queue.Holds other → other.hash ≠ transaction.hash)
    (holds : ∀ other, queue'.Holds other →
      other = transaction ∨ queue.Holds other) :
    queue'.HashesDistinct := by
  intro first second holdsFirst holdsSecond hash
  rcases holds first holdsFirst with firstNew | firstOld
  · rcases holds second holdsSecond with secondNew | secondOld
    · rw [firstNew, secondNew]
    · rw [firstNew] at hash
      exact absurd hash.symm (newHash second secondOld)
  · rcases holds second holdsSecond with secondNew | secondOld
    · rw [secondNew] at hash
      exact absurd hash (newHash first firstOld)
    · exact distinct first second firstOld secondOld hash

namespace Consistent

/-- A transaction that clashes with none is entered before its chain. -/
theorem enterOne (consistent : Consistent queue)
    (distinct : queue.HashesDistinct) (layout : Layout)
    (fresh : Fresh queue transaction) :
    ∃ queue', queue.enter layout transaction = some queue' ∧
      Consistent queue' ∧ queue'.HashesDistinct ∧ SameRest queue queue' ∧
      (∀ other, other ∈ queue'.current ↔
        other = transaction ∨ other ∈ queue.current) ∧
      (∀ other, queue'.Holds other ↔
        other = transaction ∨ queue.Holds other) ∧
      (queue.Fits transaction → Ranked queue.current →
        Ranked queue'.current) := by
  have indexed := consistent.indexed
  have freshNonce : ∀ other ∈ queue.current,
      other.sender = transaction.sender →
        other.nonce ≠ transaction.nonce :=
    fun other member => fresh.nonce other (.inl member)
  obtain ⟨queue', entered, indexed', same, front, back, old, new, gap⟩ :=
    indexed.enter layout (fun other member => fresh.hash other (.inl member))
      freshNonce
  have members : ∀ other, other ∈ queue'.current ↔
      other = transaction ∨ other ∈ queue.current := by
    intro other
    rw [new, old]
    simp only [List.mem_append, List.mem_cons]
    tauto
  have waits : ∀ other, queue'.Waits other ↔ queue.Waits other := by
    intro other
    unfold Waits
    rw [same.future]
  have holds : ∀ other, queue'.Holds other ↔
      other = transaction ∨ queue.Holds other := by
    intro other
    unfold Holds
    rw [members, waits, or_assoc]
  refine ⟨queue', entered, ⟨indexed', consistent.filed.same same.future
    same.futureSize, ?_⟩, distinct.enter fresh.hash fun other =>
      (holds other).mp, same, members, holds, ?_⟩
  · intro first member second waiting sender
    have waitingOld := (waits second).mp waiting
    rcases (members first).mp member with equal | current
    · rw [equal] at sender ⊢
      exact (fresh.nonce second (.inr waitingOld) sender.symm).symm
    · exact consistent.apart first current second waitingOld sender
  · intro fits ranked
    rw [new]
    exact indexed.ranked_enter old freshNonce gap fits ranked

theorem insertCurrent (consistent : Consistent queue)
    (distinct : queue.HashesDistinct) (layout : Layout)
    (fresh : Fresh queue transaction) :
    ∃ queue', queue.insertCurrent layout transaction = some { queue' with
        known := insert transaction.hash queue'.known } ∧
      Consistent queue' ∧ SameLimits queue queue' ∧
      transaction ∈ queue'.current ∧
      (∀ other, queue'.Holds other →
        other = transaction ∨ queue.Holds other) ∧
      (queue.WithinLimit transaction → ∀ other,
        queue.Holds other → queue'.Holds other) ∧
      (FitsAll layout queue (transaction :: queue.nextChain transaction) →
        Ranked queue.current → Ranked queue'.current) := by
  obtain ⟨entered, enters, consistentEntered, distinctEntered, same,
    members, holds, ranked⟩ := consistent.enterOne distinct layout fresh
  obtain ⟨queue', made, consistent', promotes⟩ :=
    consistentEntered.makeCurrent distinctEntered layout transaction
  have chain : entered.nextChain transaction =
      queue.nextChain transaction := by
    unfold nextChain
    rw [same.future]
  have limits := promotes.limits
  refine ⟨queue', ?_, consistent', ⟨limits.limit.trans same.limit,
      limits.futureLimit.trans same.futureLimit,
      limits.known.trans same.known, limits.dropped.trans same.dropped⟩,
    (promotes.current _).mpr (.inl ((members _).mpr (.inl rfl))), ?_, ?_, ?_⟩
  · have absent : ¬ (queue.currentByHash.lookup transaction.hash).isSome := by
      intro present
      obtain ⟨other, found⟩ := Option.isSome_iff_exists.mp present
      obtain ⟨member, hash⟩ := (consistent.indexed.byHash _ _).mp found
      exact fresh.hash other (.inl member) hash
    rw [TransactionQueue.insertCurrent, if_neg absent, enters]
    simp only [Option.bind_eq_bind, Option.bind_some, made]
    rfl
  · intro other held
    exact (holds other).mp (promotes.holds other held)
  · intro fits other held
    refine promotes.within ?_ other ((holds other).mpr (.inr held))
    unfold WithinLimit at fits ⊢
    rwa [chain, same.futureSize, same.futureLimit]
  · intro fits rankedOld
    refine promotes.ranked ?_ (ranked fits.1 rankedOld)
    rw [chain]
    exact fits.2 entered enters

end Consistent

/-- Every held transaction is known. -/
def Remembers (queue : TransactionQueue) : Prop :=
  ∀ transaction, queue.Holds transaction → transaction.hash ∈ queue.known

/-- Every known hash is that of a held transaction. -/
def Exact (queue : TransactionQueue) : Prop :=
  ∀ hash ∈ queue.known, ∃ transaction, queue.Holds transaction ∧
    transaction.hash = hash

theorem Discards.remembers (discards : Discards queue queue')
    (consistent : Consistent queue) (distinct : queue.HashesDistinct)
    (remembers : queue.Remembers) : queue'.Remembers := by
  intro other held
  rw [discards.known]
  refine ⟨remembers other (discards.holds other held), ?_⟩
  intro first member same
  have equal := distinct first other (.inl member) (discards.holds other held)
    same
  rw [equal] at member ⊢
  rcases held with current | waiting
  · exact current
  · exact absurd rfl (consistent.apart other member other
      ((discards.waits other).mp waiting) rfl)

theorem Discards.exact_ (discards : Discards queue queue')
    (exact_ : queue.Exact) : queue'.Exact := by
  intro hash member
  obtain ⟨known, stays⟩ := (discards.known hash).mp member
  obtain ⟨transaction, held, same⟩ := exact_ hash known
  refine ⟨transaction, ?_, same⟩
  rcases held with current | waiting
  · exact .inl (stays transaction current same)
  · exact .inr ((discards.waits transaction).mpr waiting)

/-- A transaction of the same sender and nonce is there with a higher bid. -/
def Outbid (queue : TransactionQueue) (transaction : Transaction) : Prop :=
  ∃ other, (queue.sameCurrent transaction = some other ∨
    queue.sameFuture transaction = some other) ∧
      transaction.gasPrice < other.gasPrice

/-- Once the transactions that it replaces are gone, the transaction and its
chain fit. -/
def FitsChain (layout : Layout) (queue : TransactionQueue)
    (transaction : Transaction) : Prop :=
  ∀ replaced cleared,
    queue.replaceCurrent transaction = some (some replaced) →
    replaced.replaceFuture transaction = some cleared →
    FitsAll layout cleared (transaction :: cleared.nextChain transaction)

/-- What an import of a transaction may do. -/
structure Imports (layout : Layout) (queue : TransactionQueue)
    (transaction : Transaction) (queue' : TransactionQueue) : Prop where
  holds : ∀ other, queue'.Holds other →
    other = transaction ∨ queue.Holds other
  dropped : queue'.dropped = queue.dropped
  limit : queue'.limit = queue.limit
  futureLimit : queue'.futureLimit = queue.futureLimit
  remembers : queue.Remembers → queue'.Remembers
  exact_ : (¬ queue.Outbid transaction →
      queue.sameFuture transaction = none ∧ queue.WithinLimit transaction) →
    queue.Exact → queue'.Exact
  ranked : (¬ queue.Outbid transaction →
      queue.FitsChain layout transaction) →
    Ranked queue.current → Ranked queue'.current

namespace Consistent

theorem sameCurrent_eq_some (consistent : Consistent queue)
    {other : Transaction} :
    queue.sameCurrent transaction = some other ↔ other ∈ queue.current ∧
      other.sender = transaction.sender ∧
        other.nonce = transaction.nonce := by
  have indexed := consistent.indexed
  have unfolded : queue.sameCurrent transaction =
      (queue.currentByAddressAndNonce.lookup transaction.sender).bind
        fun nonces => nonces.find transaction.nonce := rfl
  rw [unfolded, Option.bind_eq_some_iff]
  constructor
  · intro found
    obtain ⟨nonces, lookup, here⟩ := found
    obtain ⟨member, nonce⟩ := NonceMap.of_find here
    rw [← BySender.get_of_lookup lookup] at member
    have sender := indexed.sender_of_mem member
    refine ⟨(indexed.bySender other).mpr ?_, sender, nonce⟩
    rw [sender]
    exact member
  · intro all
    obtain ⟨current, sender, nonce⟩ := all
    have filed := (indexed.bySender other).mp current
    rw [sender] at filed
    exact ⟨_, BySender.lookup_of_mem filed,
      NonceMap.find_eq_some.mpr ⟨filed, nonce⟩⟩

theorem sameFuture_eq_some (consistent : Consistent queue)
    {other : Transaction} :
    queue.sameFuture transaction = some other ↔ queue.Waits other ∧
      other.sender = transaction.sender ∧
        other.nonce = transaction.nonce := by
  have filed := consistent.filed
  have unfolded : queue.sameFuture transaction =
      (queue.future.lookup transaction.sender).bind
        fun nonces => nonces.find transaction.nonce := rfl
  rw [unfolded, Option.bind_eq_some_iff]
  constructor
  · intro found
    obtain ⟨nonces, lookup, here⟩ := found
    obtain ⟨member, nonce⟩ := NonceMap.of_find here
    rw [← BySender.get_of_lookup lookup] at member
    exact ⟨filed.waits_of_mem _ member, filed.sender_of_mem _ member, nonce⟩
  · intro all
    obtain ⟨waiting, sender, nonce⟩ := all
    unfold Waits at waiting
    rw [sender] at waiting
    exact ⟨_, BySender.lookup_of_mem waiting,
      NonceMap.find_eq_some.mpr ⟨waiting, nonce⟩⟩

/-- The current transaction of the same nonce gives way, unless it bids
more. -/
theorem replaceCurrent (consistent : Consistent queue)
    (transaction : Transaction) :
    queue.replaceCurrent transaction = some none ∨
    ∃ queue', queue.replaceCurrent transaction = some (some queue') ∧
      Consistent queue' ∧ Discards queue queue' ∧
      (queue.sameCurrent transaction = none → queue' = queue) ∧
      (∀ other, queue.sameCurrent transaction = some other →
        ¬ transaction.gasPrice < other.gasPrice) ∧
      ∀ other ∈ queue'.current, other.sender = transaction.sender →
        other.nonce ≠ transaction.nonce := by
  unfold TransactionQueue.replaceCurrent
  cases same : queue.sameCurrent transaction with
  | none =>
      refine .inr ⟨queue, rfl, consistent, .refl queue, fun _ => rfl, nofun,
        ?_⟩
      intro other member sender nonce
      rw [consistent.sameCurrent_eq_some.mpr ⟨member, sender, nonce⟩] at same
      cases same
  | some other =>
      obtain ⟨member, sender, nonce⟩ := consistent.sameCurrent_eq_some.mp same
      simp only
      split
      · exact .inl rfl
      · rename_i notLower
        obtain ⟨queue', removed, consistent', removes⟩ :=
          consistent.remove other.hash
        refine .inr ⟨queue', by rw [removed]; rfl, consistent',
          removes.discards, nofun, ?_, ?_⟩
        · intro stays equal
          rwa [← Option.some.inj equal]
        · intro stays staysMember staysSender staysNonce
          obtain ⟨current, hash⟩ := (removes.current stays).mp staysMember
          have equal := consistent.indexed.eq_of_nonce current member
            (staysSender.trans sender.symm) (staysNonce.trans nonce.symm)
          exact hash (congrArg Transaction.hash equal)

/-- The future transaction of the same nonce is replaced. -/
theorem eraseFuture (consistent : Consistent queue) {other : Transaction}
    (same : queue.sameFuture transaction = some other) :
    Consistent (queue.eraseFuture transaction) ∧
      SameCurrent queue (queue.eraseFuture transaction) ∧
      ∀ stays, (queue.eraseFuture transaction).Waits stays ↔
        queue.Waits stays ∧ ¬ (stays.sender = transaction.sender ∧
          stays.nonce = transaction.nonce) := by
  have filed := consistent.filed
  obtain ⟨waiting, sender, nonce⟩ := consistent.sameFuture_eq_some.mp same
  unfold Waits at waiting
  rw [sender] at waiting
  have length := NonceMap.length_erase waiting
  rw [nonce] at length
  obtain ⟨filedNew, waits⟩ := filed.put
    (fun stays member => (NonceMap.mem_erase.mp member).1) length
    (show (queue.eraseFuture transaction).future = _ from rfl) rfl
  have sameCurrent : SameCurrent queue (queue.eraseFuture transaction) :=
    ⟨rfl, rfl, rfl, rfl, rfl, rfl, rfl⟩
  have waitsNew : ∀ stays, (queue.eraseFuture transaction).Waits stays ↔
      queue.Waits stays ∧ ¬ (stays.sender = transaction.sender ∧
        stays.nonce = transaction.nonce) := by
    intro stays
    rw [waits, NonceMap.mem_erase]
    by_cases here : stays.sender = transaction.sender
    · unfold Waits
      rw [here]
      tauto
    · constructor
      · intro cases_
        rcases cases_ with both | ⟨member, -⟩
        · exact ⟨both.2, fun impossible => here impossible.1⟩
        · exact absurd (filed.sender_of_mem _ member) here
      · intro both
        exact .inl ⟨here, both.1⟩
  exact ⟨consistent.same filedNew sameCurrent fun stays waitingStays =>
    ((waitsNew stays).mp waitingStays).1, sameCurrent, waitsNew⟩

/-- The sets of hashes are not part of it. -/
theorem setHashes (consistent : Consistent queue)
    (known dropped : Finset H256) :
    Consistent { queue with known, dropped } := by
  have indexed := consistent.indexed
  exact ⟨⟨indexed.nodup, indexed.byHash, indexed.bySender, indexed.senders⟩,
    consistent.filed.same rfl rfl, consistent.apart⟩

/-- A transaction that clashes with none is entered and the limit kept. -/
theorem enterFresh (consistent : Consistent queue)
    (distinct : queue.HashesDistinct) (layout : Layout)
    (fresh : Fresh queue transaction) :
    ∃ entered queue', queue.insertCurrent layout transaction = some entered ∧
      TransactionQueue.trimCurrent entered.current.length entered =
        some queue' ∧
      Consistent queue' ∧
      (∀ other, queue'.Holds other →
        other = transaction ∨ queue.Holds other) ∧
      queue'.dropped = queue.dropped ∧ queue'.limit = queue.limit ∧
      queue'.futureLimit = queue.futureLimit ∧
      (queue.Remembers → queue'.Remembers) ∧
      (queue.WithinLimit transaction → queue.Exact → queue'.Exact) ∧
      (FitsAll layout queue (transaction :: queue.nextChain transaction) →
        Ranked queue.current → Ranked queue'.current) := by
  obtain ⟨middle, inserted, consistentMiddle, limits, member, holds, within,
    ranked⟩ := consistent.insertCurrent distinct layout fresh
  let entered : TransactionQueue :=
    { middle with known := insert transaction.hash middle.known }
  have consistentEntered : Consistent entered :=
    consistentMiddle.setHashes _ _
  have distinctEntered : entered.HashesDistinct :=
    distinct.enter fresh.hash holds
  obtain ⟨queue', trimmed, consistent', discards⟩ :=
    consistentEntered.trimCurrent _ (Nat.le_refl _)
  refine ⟨entered, queue', inserted, trimmed, consistent', ?_,
    discards.dropped.trans limits.dropped, discards.limit.trans limits.limit,
    discards.futureLimit.trans limits.futureLimit, ?_, ?_, ?_⟩
  · intro other held
    exact holds other (discards.holds other held)
  · intro remembers
    refine discards.remembers consistentEntered distinctEntered ?_
    intro other held
    show other.hash ∈ insert transaction.hash middle.known
    rw [Finset.mem_insert, limits.known]
    exact (holds other held).imp (congrArg Transaction.hash)
      (remembers other)
  · intro fits exact_
    refine discards.exact_ ?_
    intro hash known
    change hash ∈ insert transaction.hash middle.known at known
    rw [Finset.mem_insert, limits.known] at known
    rcases known with new | old
    · exact ⟨transaction, .inl member, new.symm⟩
    · obtain ⟨other, held, same⟩ := exact_ hash old
      exact ⟨other, within fits other held, same⟩
  · intro fits rankedOld
    exact (ranked fits rankedOld).sublist discards.current

theorem manageImport (consistent : Consistent queue)
    (distinct : queue.HashesDistinct) (layout : Layout)
    (newHash : ∀ other, queue.Holds other →
      other.hash ≠ transaction.hash) :
    ∃ result queue', queue.manageImport layout transaction =
        some (result, queue') ∧
      Consistent queue' ∧ Imports layout queue transaction queue' := by
  have unchanged : Imports layout queue transaction queue :=
    ⟨fun _ => .inr, rfl, rfl, rfl, id, fun _ => id, fun _ => id⟩
  rcases consistent.replaceCurrent transaction with
    replaced | ⟨middle, replaced, consistentMiddle, discards, unchangedIf,
      notLower, freshCurrent⟩
  · exact ⟨.overbidGasPrice, queue, by
      rw [TransactionQueue.manageImport, replaced]
      rfl, consistent, unchanged⟩
  · have distinctMiddle := distinct.mono discards.holds
    have newMiddle : ∀ other, middle.Holds other →
        other.hash ≠ transaction.hash :=
      fun other held => newHash other (discards.holds other held)
    have sameFuture : middle.sameFuture transaction =
        queue.sameFuture transaction := by
      unfold TransactionQueue.sameFuture
      rw [discards.future]
    have withinMiddle : middle.WithinLimit transaction ↔
        queue.WithinLimit transaction := by
      unfold WithinLimit nextChain
      rw [discards.future, discards.futureSize, discards.futureLimit]
    cases same : middle.sameFuture transaction with
    | none =>
        have fresh : Fresh middle transaction := by
          refine ⟨newMiddle, ?_⟩
          intro other held sender nonce
          rcases held with current | waiting
          · exact freshCurrent other current sender nonce
          · rw [consistentMiddle.sameFuture_eq_some.mpr
              ⟨waiting, sender, nonce⟩] at same
            cases same
        obtain ⟨entered, queue', inserted, trimmed, consistent', holds,
          dropped, limit, futureLimit, remembers, exact_, ranked⟩ :=
          consistentMiddle.enterFresh distinctMiddle layout fresh
        have notOutbid : ¬ queue.Outbid transaction := by
          intro outbid
          obtain ⟨other, current | waiting, lower⟩ := outbid
          · exact notLower other current lower
          · rw [← sameFuture, same] at waiting
            cases waiting
        have cleared : middle.replaceFuture transaction = some middle := by
          rw [TransactionQueue.replaceFuture, same]
        refine ⟨.success, queue', ?_, consistent', ?_, ?_, ?_, ?_, ?_, ?_, ?_⟩
        · rw [TransactionQueue.manageImport, replaced]
          simp only [Option.bind_eq_bind, Option.bind_some, cleared, inserted,
            trimmed]
          rfl
        · intro other held
          exact (holds other held).imp id (discards.holds other)
        · exact dropped.trans discards.dropped
        · exact limit.trans discards.limit
        · exact futureLimit.trans discards.futureLimit
        · intro remembersOld
          exact remembers
            (discards.remembers consistent distinct remembersOld)
        · intro keeps exactOld
          exact exact_ (withinMiddle.mpr (keeps notOutbid).2)
            (discards.exact_ exactOld)
        · intro fits rankedOld
          exact ranked (fits notOutbid middle middle replaced cleared)
            (rankedOld.sublist discards.current)
    | some other =>
        obtain ⟨waiting, sender, nonce⟩ :=
          consistentMiddle.sameFuture_eq_some.mp same
        by_cases lower : transaction.gasPrice < other.gasPrice
        · -- A waiting transaction excludes a current one of that nonce.
          have alone : queue.sameCurrent transaction = none := by
            rw [Option.eq_none_iff_forall_ne_some]
            intro current found
            obtain ⟨member, currentSender, currentNonce⟩ :=
              consistent.sameCurrent_eq_some.mp found
            exact consistent.apart current member other
              ((discards.waits other).mp waiting)
              (currentSender.trans sender.symm)
              (currentNonce.trans nonce.symm)
          have unmoved := unchangedIf alone
          refine ⟨.overbidGasPrice, queue, ?_, consistent, unchanged⟩
          rw [TransactionQueue.manageImport, replaced]
          simp only [Option.bind_eq_bind, Option.bind_some,
            TransactionQueue.replaceFuture, same, lower, if_true]
          rw [unmoved]
          rfl
        · obtain ⟨consistentCleared, sameCurrent, waits⟩ :=
            consistentMiddle.eraseFuture same
          have holdsCleared : ∀ stays,
              (middle.eraseFuture transaction).Holds stays →
                middle.Holds stays :=
            fun stays held => held.imp id fun waiting =>
              ((waits stays).mp waiting).1
          have fresh : Fresh (middle.eraseFuture transaction) transaction := by
            refine ⟨fun stays held => newMiddle stays
              (holdsCleared stays held), ?_⟩
            intro stays held staysSender staysNonce
            rcases held with current | waitingStays
            · exact freshCurrent stays current staysSender staysNonce
            · exact ((waits stays).mp waitingStays).2
                ⟨staysSender, staysNonce⟩
          obtain ⟨entered, queue', inserted, trimmed, consistent', holds,
            dropped, limit, futureLimit, remembers, -, ranked⟩ :=
            consistentCleared.enterFresh (distinctMiddle.mono holdsCleared)
              layout fresh
          have notOutbid : ¬ queue.Outbid transaction := by
            intro outbid
            obtain ⟨higher, current | found, above⟩ := outbid
            · exact notLower higher current above
            · rw [← sameFuture, same] at found
              rw [← Option.some.inj found] at above
              exact lower above
          have cleared : middle.replaceFuture transaction =
              some (middle.eraseFuture transaction) := by
            simp only [TransactionQueue.replaceFuture, same, lower, if_false]
          refine ⟨.success, queue', ?_, consistent', ?_, ?_, ?_, ?_, ?_, ?_,
            ?_⟩
          · rw [TransactionQueue.manageImport, replaced]
            simp only [Option.bind_eq_bind, Option.bind_some, cleared,
              inserted, trimmed]
            rfl
          · intro stays held
            exact (holds stays held).imp id fun heldCleared =>
              discards.holds stays (holdsCleared stays heldCleared)
          · exact dropped.trans discards.dropped
          · exact limit.trans discards.limit
          · exact futureLimit.trans discards.futureLimit
          · intro remembersOld
            refine remembers fun stays held => ?_
            exact discards.remembers consistent distinct remembersOld stays
              (holdsCleared stays held)
          · intro keeps _
            have none := (keeps notOutbid).1
            rw [← sameFuture, same] at none
            cases none
          · intro fits rankedOld
            exact ranked (fits notOutbid middle _ replaced cleared)
              (rankedOld.sublist discards.current)

end Consistent

/-! ## Calls and runs -/

/-- The queue is consistent and holds and knows what was imported. -/
structure Sound (offered : Transaction → Prop) (queue : TransactionQueue) :
    Prop where
  consistent : Consistent queue
  remembers : queue.Remembers
  offered : ∀ transaction, queue.Holds transaction → offered transaction

/-- Different transactions that are imported have different hashes. -/
def HashUnique (offered : Transaction → Prop) : Prop :=
  ∀ first second, offered first → offered second →
    first.hash = second.hash → first = second

variable {offered : Transaction → Prop}

theorem Sound.distinct (sound : Sound offered queue)
    (unique : HashUnique offered) : queue.HashesDistinct := by
  intro first second holdsFirst holdsSecond
  exact unique first second (sound.offered first holdsFirst)
    (sound.offered second holdsSecond)

/-- The transaction passes the checks of an import and is not outbid. -/
def Accepts (queue : TransactionQueue) (transaction : Transaction)
    (ik : IfDropped) : Prop :=
  transaction.hasZeroSignature = false ∧
    queue.check transaction.hash ik = .success ∧ ¬ queue.Outbid transaction

/-- The call discards no future transaction. -/
def KeepsFuture (queue : TransactionQueue) : Request → Prop
  | .import_ transaction ik => queue.Accepts transaction ik →
      queue.sameFuture transaction = none ∧ queue.WithinLimit transaction
  | .dropGood transaction => queue.WithinLimit transaction
  | _ => True

/-- Whatever the call enters fits. -/
def KeepsOrder (layout : Layout) (queue : TransactionQueue) : Request → Prop
  | .import_ transaction ik => queue.Accepts transaction ik →
      queue.FitsChain layout transaction
  | .dropGood transaction =>
      FitsAll layout queue (queue.nextChain transaction)
  | _ => True

/-- What a call may do to what is held, known and dropped. -/
structure Serves (layout : Layout) (queue : TransactionQueue)
    (request : Request) (queue' : TransactionQueue) : Prop where
  holds : ∀ other, queue'.Holds other → queue.Holds other ∨
    ∃ ik, request = .import_ other ik ∧ queue.check other.hash ik = .success
  dropped : request ≠ .clear → queue.dropped ⊆ queue'.dropped
  exact_ : queue.KeepsFuture request → queue.Exact → queue'.Exact
  ranked : queue.KeepsOrder layout request → Ranked queue.current →
    Ranked queue'.current

theorem Consistent.clear (queue : TransactionQueue) :
    Consistent queue.clear := by
  refine ⟨⟨.nil, ?_, ?_, ?_⟩, ⟨?_, rfl⟩, ?_⟩
  · intro txHash transaction
    simp [TransactionQueue.clear]
  · intro transaction
    exact ⟨nofun, nofun⟩
  · exact nofun
  · exact nofun
  · exact nofun

namespace Sound

theorem import_ (sound : Sound offered queue) (unique : HashUnique offered)
    (layout : Layout) {ik : IfDropped} (new : offered transaction) :
    ∃ result queue', queue.import_ layout transaction ik =
        some (result, queue') ∧
      Sound offered queue' ∧
      Serves layout queue (.import_ transaction ik) queue' := by
  have unchanged : ∀ request, Serves layout queue request queue :=
    fun _ => ⟨fun _ => .inl, fun _ => Finset.Subset.refl _, fun _ => id,
      fun _ => id⟩
  unfold TransactionQueue.import_
  split
  · exact ⟨_, queue, rfl, sound, unchanged _⟩
  · rename_i signed
    split
    · rename_i checked
      have unknown : transaction.hash ∉ queue.known := by
        intro known
        rw [check, if_pos known] at checked
        cases checked
      have newHash : ∀ other, queue.Holds other →
          other.hash ≠ transaction.hash := by
        intro other held same
        rw [← same] at unknown
        exact unknown (sound.remembers other held)
      obtain ⟨result, queue', managed, consistent, imports⟩ :=
        sound.consistent.manageImport (sound.distinct unique) layout newHash
      refine ⟨result, queue', managed, ⟨consistent,
        imports.remembers sound.remembers, ?_⟩, ?_, ?_, ?_, ?_⟩
      · intro other held
        rcases imports.holds other held with equal | old
        · rw [equal]
          exact new
        · exact sound.offered other old
      · intro other held
        rcases imports.holds other held with equal | old
        · rw [equal]
          exact .inr ⟨ik, rfl, checked⟩
        · exact .inl old
      · intro _
        rw [imports.dropped]
      · intro keeps exact_
        refine imports.exact_ (fun notOutbid => ?_) exact_
        exact keeps ⟨Bool.eq_false_of_not_eq_true signed, checked, notOutbid⟩
      · intro keeps ranked
        refine imports.ranked (fun notOutbid => ?_) ranked
        exact keeps ⟨Bool.eq_false_of_not_eq_true signed, checked, notOutbid⟩
    · exact ⟨_, queue, rfl, sound, unchanged _⟩

/-- Discarding current transactions keeps the queue sound. -/
theorem discards (sound : Sound offered queue) (unique : HashUnique offered)
    (consistent : Consistent queue') (discards : Discards queue queue') :
    Sound offered queue' := by
  refine ⟨consistent, discards.remembers sound.consistent
    (sound.distinct unique) sound.remembers, ?_⟩
  intro other held
  exact sound.offered other (discards.holds other held)

theorem drop (sound : Sound offered queue) (unique : HashUnique offered)
    (layout : Layout) (txHash : H256) :
    ∃ queue', queue.drop txHash = some queue' ∧ Sound offered queue' ∧
      Serves layout queue (.drop txHash) queue' ∧
      (txHash ∈ queue.known → txHash ∈ queue'.dropped ∧
        (∀ other ∈ queue'.current, other.hash ≠ txHash) ∧
        queue'.future = queue.future) := by
  unfold TransactionQueue.drop
  split
  · rename_i unknown
    exact ⟨queue, rfl, sound, ⟨fun _ => .inl, fun _ => Finset.Subset.refl _,
      fun _ => id, fun _ => id⟩, fun known => absurd known unknown⟩
  · let marked : TransactionQueue :=
      { queue with dropped := insert txHash queue.dropped }
    have consistentMarked : Consistent marked :=
      sound.consistent.setHashes _ _
    have soundMarked : Sound offered marked :=
      ⟨consistentMarked, sound.remembers, sound.offered⟩
    obtain ⟨queue', removed, consistent, removes⟩ :=
      consistentMarked.remove txHash
    refine ⟨queue', removed, soundMarked.discards unique consistent
      removes.discards, ⟨?_, ?_, ?_, ?_⟩, fun _ => ⟨?_, ?_,
        removes.future⟩⟩
    · intro other held
      exact .inl (removes.discards.holds other held)
    · intro _
      rw [removes.dropped]
      exact Finset.subset_insert _ _
    · intro _ exact_
      exact removes.discards.exact_ exact_
    · intro _ ranked
      exact ranked.sublist removes.sublist
    · rw [removes.dropped]
      exact Finset.mem_insert_self _ _
    · intro other member
      exact ((removes.current other).mp member).2

theorem dropGood (sound : Sound offered queue) (unique : HashUnique offered)
    (layout : Layout) (transaction : Transaction) :
    ∃ queue', queue.dropGood layout transaction = some queue' ∧
      Sound offered queue' ∧ Serves layout queue (.dropGood transaction) queue' := by
  obtain ⟨middle, made, consistentMiddle, promotes⟩ :=
    sound.consistent.makeCurrent (sound.distinct unique) layout transaction
  have limits := promotes.limits
  have soundMiddle : Sound offered middle := by
    refine ⟨consistentMiddle, ?_, ?_⟩
    · intro other held
      rw [limits.known]
      exact sound.remembers other (promotes.holds other held)
    · intro other held
      exact sound.offered other (promotes.holds other held)
  have exactMiddle : queue.WithinLimit transaction → queue.Exact →
      middle.Exact := by
    intro fits exact_ hash known
    rw [limits.known] at known
    obtain ⟨other, held, same⟩ := exact_ hash known
    exact ⟨other, promotes.within fits other held, same⟩
  unfold TransactionQueue.dropGood
  rw [made]
  simp only [Option.bind_eq_bind, Option.bind_some]
  split
  · exact ⟨middle, rfl, soundMiddle, ⟨fun other held => .inl
      (promotes.holds other held), fun _ => by rw [limits.dropped],
      exactMiddle, promotes.ranked⟩⟩
  · obtain ⟨queue', removed, consistent, removes⟩ :=
      consistentMiddle.remove transaction.hash
    refine ⟨queue', removed, soundMiddle.discards unique consistent
      removes.discards, ⟨?_, ?_, ?_, ?_⟩⟩
    · intro other held
      exact .inl (promotes.holds other (removes.discards.holds other held))
    · intro _
      rw [removes.dropped, limits.dropped]
    · intro fits exact_
      exact removes.discards.exact_ (exactMiddle fits exact_)
    · intro fits ranked
      exact (promotes.ranked fits ranked).sublist removes.sublist

/-- Every call returns and keeps the queue sound. -/
theorem serve (sound : Sound offered queue) (unique : HashUnique offered)
    (layout : Layout) {request : Request}
    (new : ∀ transaction ik, request = .import_ transaction ik →
      offered transaction) :
    ∃ queue', queue.serve layout request = some queue' ∧
      Sound offered queue' ∧ Serves layout queue request queue' := by
  cases request with
  | import_ transaction ik =>
      obtain ⟨result, queue', imported, sound', serves⟩ :=
        sound.import_ unique layout (new transaction ik rfl)
      exact ⟨queue', by rw [TransactionQueue.serve, imported]; rfl, sound',
        serves⟩
  | drop txHash =>
      obtain ⟨queue', dropped, sound', serves, -⟩ :=
        sound.drop unique layout txHash
      exact ⟨queue', dropped, sound', serves⟩
  | dropGood transaction => exact sound.dropGood unique layout transaction
  | setFuture txHash =>
      obtain ⟨consistent, limits, sublist, holds⟩ :=
        sound.consistent.setFuture txHash
      refine ⟨queue.setFuture txHash, rfl, ⟨consistent, ?_, ?_⟩, ?_, ?_, ?_,
        ?_⟩
      · intro other held
        rw [limits.known]
        exact sound.remembers other ((holds other).mp held)
      · intro other held
        exact sound.offered other ((holds other).mp held)
      · intro other held
        exact .inl ((holds other).mp held)
      · intro _
        rw [limits.dropped]
      · intro _ exact_ hash known
        rw [limits.known] at known
        obtain ⟨other, held, same⟩ := exact_ hash known
        exact ⟨other, (holds other).mpr held, same⟩
      · intro _ ranked
        exact ranked.sublist sublist
  | clear =>
      have nothing : ∀ other, ¬ queue.clear.Holds other := by
        intro other held
        rcases held with member | waiting
        · cases member
        · cases waiting
      refine ⟨queue.clear, rfl, ⟨.clear queue, ?_, ?_⟩, ?_, ?_, ?_, ?_⟩
      · intro other held
        exact absurd held (nothing other)
      · intro other held
        exact absurd held (nothing other)
      · intro other held
        exact absurd held (nothing other)
      · intro notClear
        exact absurd rfl notClear
      · intro _ _ hash known
        cases known
      · intro _ _
        exact .nil

/-- A queue with nothing in it. -/
theorem initial (offered : Transaction → Prop) (limit futureLimit : UInt32) :
    Sound offered { limit, futureLimit } := by
  have consistent := Consistent.clear { limit, futureLimit }
  refine ⟨consistent, ?_, ?_⟩
  · intro other held
    rcases held with member | waiting
    · cases member
    · cases waiting
  · intro other held
    rcases held with member | waiting
    · cases member
    · cases waiting

end Sound

/-- The transactions that a run imports. -/
def Imported (requests : List (Layout × Request))
    (transaction : Transaction) : Prop :=
  ∃ layout ik, (layout, Request.import_ transaction ik) ∈ requests

/-- Every call of a run meets a condition on the queue before it. -/
def Throughout (condition : TransactionQueue → Layout → Request → Prop) :
    TransactionQueue → List (Layout × Request) → Prop
  | _, [] => True
  | queue, (layout, request) :: rest =>
      condition queue layout request ∧ ∀ queue',
        queue.serve layout request = some queue' →
          Throughout condition queue' rest

/-- A run keeps what each of its calls keeps. -/
theorem Sound.run (sound : Sound offered queue) (unique : HashUnique offered)
    (requests : List (Layout × Request))
    (new : ∀ transaction, Imported requests transaction →
      offered transaction)
    {condition : TransactionQueue → Layout → Request → Prop}
    (throughout : Throughout condition queue requests)
    (kept : TransactionQueue → Prop)
    (step : ∀ queue queue' layout request, condition queue layout request →
      Serves layout queue request queue' → kept queue → kept queue')
    (initially : kept queue) :
    ∃ queue', queue.run requests = some queue' ∧ Sound offered queue' ∧
      kept queue' := by
  induction requests generalizing queue with
  | nil => exact ⟨queue, rfl, sound, initially⟩
  | cons entry rest induction =>
      obtain ⟨layout, request⟩ := entry
      have newHere : ∀ transaction ik,
          request = .import_ transaction ik → offered transaction := by
        intro transaction ik equal
        refine new transaction ⟨layout, ik, ?_⟩
        rw [equal]
        exact List.mem_cons_self
      have newRest : ∀ transaction, Imported rest transaction →
          offered transaction := by
        intro transaction imported
        obtain ⟨layout, ik, member⟩ := imported
        exact new transaction ⟨layout, ik, List.mem_cons_of_mem _ member⟩
      obtain ⟨middle, served, soundMiddle, serves⟩ :=
        sound.serve unique layout newHere
      obtain ⟨queue', ran, sound', kept'⟩ := induction soundMiddle newRest
        (throughout.2 middle served)
        (step queue middle layout request throughout.1 serves initially)
      refine ⟨queue', ?_, sound', kept'⟩
      rw [TransactionQueue.run, List.foldlM_cons, served]
      exact ran

/-- A condition on the calls alone. -/
theorem throughout_of_forall {allowed : Request → Prop}
    {requests : List (Layout × Request)}
    (all : ∀ entry ∈ requests, allowed entry.2) :
    Throughout (fun _ _ => allowed) queue requests := by
  induction requests generalizing queue with
  | nil => trivial
  | cons entry rest induction =>
      refine ⟨all entry List.mem_cons_self, fun queue' _ => ?_⟩
      exact induction fun later member =>
        all later (List.mem_cons_of_mem _ member)

/-- Every run returns, and the multiset and its indices hold the same
transactions, one for each sender and nonce, none of them also in the
future, with no empty map and the future counted. -/
theorem run_consistent (limit futureLimit : UInt32)
    (requests : List (Layout × Request))
    (unique : HashUnique (Imported requests)) :
    ∃ queue, TransactionQueue.run { limit, futureLimit } requests =
        some queue ∧ Consistent queue := by
  have anything : Throughout (fun _ _ _ => True) { limit, futureLimit }
      requests := throughout_of_forall fun _ _ => trivial
  obtain ⟨queue, ran, sound, -⟩ := (Sound.initial (Imported requests) limit
    futureLimit).run unique requests (fun _ => id) anything (fun _ => True)
    (fun _ _ _ _ _ _ => id) trivial
  exact ⟨queue, ran, sound.consistent⟩

/-- Two transactions of a sender, the first set back to the future. -/
theorem run_consistent_sample :
    ∃ queue, TransactionQueue.run { limit := 1024, futureLimit := 1024 }
      [(layoutSample, .import_ (transactionSample 1 7 0 20) .ignore),
        (layoutSample, .import_ (transactionSample 2 7 1 20) .ignore),
        (layoutSample, .setFuture (hashOfNat 2))] = some queue ∧
      Consistent queue := by
  refine run_consistent 1024 1024 _ ?_
  intro first second importedFirst importedSecond hash
  simp only [Imported, List.mem_cons, Prod.mk.injEq, Request.import_.injEq,
    reduceCtorEq, and_false, List.not_mem_nil, or_false]
    at importedFirst importedSecond
  obtain ⟨-, -, ⟨-, rfl, -⟩ | ⟨-, rfl, -⟩⟩ := importedFirst <;>
    obtain ⟨-, -, ⟨-, rfl, -⟩ | ⟨-, rfl, -⟩⟩ := importedSecond
  · rfl
  · exact absurd hash (by decide +kernel)
  · exact absurd hash (by decide +kernel)
  · rfl

end TransactionQueue

end Aecmio
