import Aecmio.Queue.Consistency

/-!
# An import and the limits

What a successful import does, stage by stage: the transaction that bids less
gives way, the new one is entered, those that follow it are promoted, and both
parts are cut back to their limits.  Nothing has to be known of the hashes:
the queue turns away a transaction whose hash it holds.
-/

namespace Aecmio

namespace TransactionQueue

variable {queue queue' : TransactionQueue} {transaction : Transaction}
  {layout : Layout}

/-! ## The loops over the limits -/

theorem trimCurrent_within {fuel : Nat}
    (ran : queue.trimCurrent fuel = some queue') :
    queue'.current.length ≤ queue'.limit.toNat := by
  induction fuel generalizing queue with
  | zero =>
      unfold trimCurrent at ran
      split at ran
      · cases ran
      · cases ran
        omega
  | succ fuel induction =>
      unfold trimCurrent at ran
      split at ran
      · obtain ⟨last, ending, ran⟩ := Option.bind_eq_some_iff.mp ran
        obtain ⟨middle, removed, ran⟩ := Option.bind_eq_some_iff.mp ran
        exact induction ran
      · cases ran
        omega

theorem remove_future {txHash : H256}
    (removed : queue.remove txHash = some queue') :
    queue'.future = queue.future ∧ queue'.futureSize = queue.futureSize ∧
      queue'.futureLimit = queue.futureLimit := by
  unfold remove at removed
  split at removed
  · cases removed
    exact ⟨rfl, rfl, rfl⟩
  · obtain ⟨nonces, found, removed⟩ := Option.bind_eq_some_iff.mp removed
    cases removed
    exact ⟨rfl, rfl, rfl⟩

theorem trimCurrent_future {fuel : Nat}
    (ran : queue.trimCurrent fuel = some queue') :
    queue'.future = queue.future ∧ queue'.futureSize = queue.futureSize ∧
      queue'.futureLimit = queue.futureLimit := by
  induction fuel generalizing queue with
  | zero =>
      unfold trimCurrent at ran
      split at ran
      · cases ran
      · cases ran
        exact ⟨rfl, rfl, rfl⟩
  | succ fuel induction =>
      unfold trimCurrent at ran
      split at ran
      · obtain ⟨last, ending, ran⟩ := Option.bind_eq_some_iff.mp ran
        obtain ⟨middle, removed, ran⟩ := Option.bind_eq_some_iff.mp ran
        obtain ⟨future, size, limit⟩ := remove_future removed
        obtain ⟨future', size', limit'⟩ := induction ran
        exact ⟨future'.trans future, size'.trans size, limit'.trans limit⟩
      · cases ran
        exact ⟨rfl, rfl, rfl⟩

theorem trimFuture_within {fuel : Nat}
    (ran : queue.trimFuture layout fuel = some queue') :
    queue'.futureSize ≤ queue'.futureLimit := by
  induction fuel generalizing queue with
  | zero =>
      unfold trimFuture at ran
      split at ran
      · cases ran
      next within =>
        cases ran
        exact UInt32.not_lt.mp within
  | succ fuel induction =>
      unfold trimFuture at ran
      split at ran
      · obtain ⟨middle, dropped, ran⟩ := Option.bind_eq_some_iff.mp ran
        exact induction ran
      next within =>
        cases ran
        exact UInt32.not_lt.mp within

/-! ## The stages of an import -/

/-- The queue is consistent and knows the hashes that it holds, no two of
which are the same. -/
structure Whole (queue : TransactionQueue) : Prop where
  consistent : Consistent queue
  distinct : queue.HashesDistinct
  remembers : queue.Remembers

/-- Once the transaction that it replaces is gone, one can be entered. -/
structure Clears (queue : TransactionQueue) (transaction : Transaction)
    (cleared : TransactionQueue) : Prop where
  consistent : Consistent cleared
  distinct : cleared.HashesDistinct
  fresh : Fresh cleared transaction
  holds : ∀ other, cleared.Holds other ↔ queue.Holds other ∧
    ¬ (other.sender = transaction.sender ∧ other.nonce = transaction.nonce)
  bids : ∀ other, queue.Holds other → other.sender = transaction.sender →
    other.nonce = transaction.nonce → other.gasPrice ≤ transaction.gasPrice
  limit : cleared.limit = queue.limit
  futureLimit : cleared.futureLimit = queue.futureLimit

/-- A successful import. -/
inductive Stages (layout : Layout) (queue : TransactionQueue)
    (transaction : Transaction) (queue' : TransactionQueue) : Prop where
  | mk (replaced cleared entered promoted trimmed : TransactionQueue)
      (replaces : queue.replaceCurrent transaction = some (some replaced))
      (erases : replaced.replaceFuture transaction = some cleared)
      (clears : Clears queue transaction cleared)
      (enters : cleared.enter layout transaction = some entered)
      (promotes : entered.promote layout transaction = some promoted)
      (trims : promoted.trimFuture layout promoted.futureSize.toNat =
        some trimmed)
      (cuts : TransactionQueue.trimCurrent trimmed.current.length
        { trimmed with known := insert transaction.hash trimmed.known } =
          some queue')

theorem insertCurrent_eq (consistent : Consistent queue)
    (fresh : Fresh queue transaction) :
    queue.insertCurrent layout transaction = (do
      let queue ← queue.enter layout transaction
      let queue ← queue.makeCurrent layout transaction
      return { queue with known := insert transaction.hash queue.known }) := by
  apply if_neg
  intro present
  obtain ⟨other, found⟩ := Option.isSome_iff_exists.mp present
  obtain ⟨member, hash⟩ := (consistent.indexed.byHash _ _).mp found
  exact fresh.hash other (.inl member) hash

/-- The current transaction of the same sender and nonce is gone. -/
structure Replaces (queue : TransactionQueue) (transaction : Transaction)
    (replaced : TransactionQueue) : Prop where
  consistent : Consistent replaced
  discards : Discards queue replaced
  current : ∀ other, other ∈ replaced.current ↔ other ∈ queue.current ∧
    ¬ (other.sender = transaction.sender ∧ other.nonce = transaction.nonce)
  bids : ∀ other ∈ queue.current, other.sender = transaction.sender →
    other.nonce = transaction.nonce → other.gasPrice ≤ transaction.gasPrice
  unchanged : queue.sameCurrent transaction = none → replaced = queue

theorem Whole.replaceCurrent (whole : Whole queue)
    (transaction : Transaction) :
    queue.replaceCurrent transaction = some none ∨
      ∃ replaced, queue.replaceCurrent transaction = some (some replaced) ∧
        Replaces queue transaction replaced := by
  have consistent := whole.consistent
  unfold TransactionQueue.replaceCurrent
  cases same : queue.sameCurrent transaction with
  | none =>
      have alone : ∀ other ∈ queue.current,
          ¬ (other.sender = transaction.sender ∧
            other.nonce = transaction.nonce) := by
        rintro other member ⟨sender, nonce⟩
        rw [consistent.sameCurrent_eq_some.mpr ⟨member, sender, nonce⟩] at same
        cases same
      refine .inr ⟨queue, rfl, consistent, .refl queue, ?_, ?_, fun _ => rfl⟩
      · intro other
        exact ⟨fun member => ⟨member, alone other member⟩, And.left⟩
      · intro other member sender nonce
        exact absurd ⟨sender, nonce⟩ (alone other member)
  | some former =>
      obtain ⟨member, sender, nonce⟩ := consistent.sameCurrent_eq_some.mp same
      have only : ∀ other ∈ queue.current,
          other.sender = transaction.sender →
          other.nonce = transaction.nonce → other = former := by
        intro other present otherSender otherNonce
        exact consistent.indexed.eq_of_nonce present member
          (otherSender.trans sender.symm) (otherNonce.trans nonce.symm)
      simp only
      split
      · exact .inl rfl
      next notLower =>
        obtain ⟨replaced, removed, consistent', removes⟩ :=
          consistent.remove former.hash
        refine .inr ⟨replaced, ?_, consistent', removes.discards, ?_, ?_,
          ?_⟩
        · rw [removed]
          rfl
        · intro other
          rw [removes.current]
          constructor
          · rintro ⟨present, hash⟩
            refine ⟨present, ?_⟩
            rintro ⟨otherSender, otherNonce⟩
            exact hash (congrArg Transaction.hash
              (only other present otherSender otherNonce))
          · rintro ⟨present, other'⟩
            refine ⟨present, ?_⟩
            intro hash
            rw [consistent.indexed.eq_of_hash present member hash] at other'
            exact other' ⟨sender, nonce⟩
        · intro other present otherSender otherNonce
          rw [only other present otherSender otherNonce]
          exact BitVec.not_lt.mp notLower
        · intro none
          cases none.symm.trans same

/-- The future transaction of the same sender and nonce gives way too, unless
it bids more; then none of the current ones has given way. -/
theorem Replaces.replaceFuture {replaced : TransactionQueue}
    (replaces : Replaces queue transaction replaced) (whole : Whole queue)
    (unknown : transaction.hash ∉ queue.known) :
    (replaced.replaceFuture transaction = none ∧ replaced = queue) ∨
      ∃ cleared, replaced.replaceFuture transaction = some cleared ∧
        Clears queue transaction cleared := by
  have discards := replaces.discards
  have newHash : ∀ other, queue.Holds other →
      other.hash ≠ transaction.hash := by
    intro other held same
    rw [← same] at unknown
    exact unknown (whole.remembers other held)
  unfold TransactionQueue.replaceFuture
  cases same : replaced.sameFuture transaction with
  | none =>
      have alone : ∀ other, queue.Waits other →
          ¬ (other.sender = transaction.sender ∧
            other.nonce = transaction.nonce) := by
        rintro other waiting ⟨sender, nonce⟩
        rw [replaces.consistent.sameFuture_eq_some.mpr
          ⟨(discards.waits other).mpr waiting, sender, nonce⟩] at same
        cases same
      have holds : ∀ other, replaced.Holds other ↔ queue.Holds other ∧
          ¬ (other.sender = transaction.sender ∧
            other.nonce = transaction.nonce) := by
        intro other
        unfold Holds
        rw [replaces.current, discards.waits]
        have waiting := alone other
        tauto
      refine .inr ⟨replaced, rfl, replaces.consistent,
        whole.distinct.mono discards.holds, ⟨?_, ?_⟩, holds, ?_,
        discards.limit, discards.futureLimit⟩
      · intro other held
        exact newHash other (discards.holds other held)
      · intro other held sender nonce
        exact ((holds other).mp held).2 ⟨sender, nonce⟩
      · intro other held sender nonce
        rcases held with member | waiting
        · exact replaces.bids other member sender nonce
        · exact absurd ⟨sender, nonce⟩ (alone other waiting)
  | some former =>
      obtain ⟨waiting, sender, nonce⟩ :=
        replaces.consistent.sameFuture_eq_some.mp same
      have waitingOld := (discards.waits former).mp waiting
      -- A waiting transaction excludes a current one of that nonce.
      have alone : ∀ other ∈ queue.current,
          ¬ (other.sender = transaction.sender ∧
            other.nonce = transaction.nonce) := by
        rintro other member ⟨otherSender, otherNonce⟩
        exact whole.consistent.apart other member former waitingOld
          (otherSender.trans sender.symm) (otherNonce.trans nonce.symm)
      simp only
      split
      next lower =>
        refine .inl ⟨rfl, replaces.unchanged ?_⟩
        rw [Option.eq_none_iff_forall_ne_some]
        intro current found
        obtain ⟨member, both⟩ := whole.consistent.sameCurrent_eq_some.mp found
        exact alone current member both
      next notLower =>
        obtain ⟨consistent, sameCurrent, waits⟩ :=
          replaces.consistent.eraseFuture same
        have holds : ∀ other,
            (replaced.eraseFuture transaction).Holds other ↔
              queue.Holds other ∧ ¬ (other.sender = transaction.sender ∧
                other.nonce = transaction.nonce) := by
          intro other
          unfold Holds
          rw [sameCurrent.current, replaces.current, waits, discards.waits]
          tauto
        refine .inr ⟨replaced.eraseFuture transaction, rfl, consistent,
          whole.distinct.mono fun other held => ((holds other).mp held).1,
          ⟨?_, ?_⟩, holds, ?_, sameCurrent.limit.trans discards.limit,
          sameCurrent.futureLimit.trans discards.futureLimit⟩
        · intro other held
          exact newHash other ((holds other).mp held).1
        · intro other held otherSender otherNonce
          exact ((holds other).mp held).2 ⟨otherSender, otherNonce⟩
        · intro other held otherSender otherNonce
          rcases held with member | waitingOther
          · exact absurd ⟨otherSender, otherNonce⟩ (alone other member)
          · have equal : other = former := by
              have found := replaces.consistent.sameFuture_eq_some.mpr
                ⟨(discards.waits other).mpr waitingOther, otherSender,
                  otherNonce⟩
              rw [same] at found
              exact (Option.some.inj found).symm
            rw [equal]
            exact BitVec.not_lt.mp notLower

/-- Entering a transaction, promoting and trimming all return. -/
theorem Clears.insertCurrent {cleared : TransactionQueue}
    (clears : Clears queue transaction cleared) (layout : Layout) :
    ∃ entered promoted trimmed,
      cleared.enter layout transaction = some entered ∧
      entered.promote layout transaction = some promoted ∧
      promoted.trimFuture layout promoted.futureSize.toNat = some trimmed ∧
      Consistent trimmed ∧
      cleared.insertCurrent layout transaction = some { trimmed with
        known := insert transaction.hash trimmed.known } := by
  obtain ⟨entered, enters, consistentEntered, distinctEntered, -⟩ :=
    clears.consistent.enterOne clears.distinct layout clears.fresh
  obtain ⟨promoted, promotes, consistentPromoted, -⟩ :=
    consistentEntered.promote distinctEntered layout transaction
  obtain ⟨trimmed, trims, filed, same, waits, -⟩ :=
    consistentPromoted.filed.trimFuture layout _ (Nat.le_refl _)
  refine ⟨entered, promoted, trimmed, enters, promotes, trims,
    consistentPromoted.same filed same waits, ?_⟩
  rw [insertCurrent_eq clears.consistent clears.fresh, enters]
  simp only [Option.bind_eq_bind, Option.bind_some, makeCurrent, promotes,
    trims]
  rfl

theorem Whole.manageImport (whole : Whole queue) (layout : Layout)
    (unknown : transaction.hash ∉ queue.known) :
    queue.manageImport layout transaction =
        some (.overbidGasPrice, queue) ∨
      ∃ queue', queue.manageImport layout transaction =
          some (.success, queue') ∧ Stages layout queue transaction queue' := by
  unfold TransactionQueue.manageImport
  rcases whole.replaceCurrent transaction with
    replaced | ⟨replaced, found, replaces⟩
  · rw [replaced]
    exact .inl rfl
  · rw [found]
    simp only [Option.bind_eq_bind, Option.bind_some]
    rcases replaces.replaceFuture whole unknown with
      ⟨higher, same⟩ | ⟨cleared, erased, clears⟩
    · rw [higher, same]
      exact .inl rfl
    · obtain ⟨entered, promoted, trimmed, enters, promotes, trims, consistent,
        inserted⟩ := clears.insertCurrent layout
      obtain ⟨queue', cuts, -⟩ := (consistent.setHashes (insert
        transaction.hash trimmed.known) trimmed.dropped).trimCurrent
          trimmed.current.length (Nat.le_refl _)
      rw [erased]
      simp only [inserted, Option.bind_some]
      refine .inr ⟨queue', ?_, replaced, cleared, entered, promoted, trimmed,
        found, erased, clears, enters, promotes, trims, cuts⟩
      rw [cuts]
      rfl

/-- What every call keeps. -/
structure Carries (queue queue' : TransactionQueue) : Prop where
  whole : Whole queue'
  limit : queue'.limit = queue.limit
  futureLimit : queue'.futureLimit = queue.futureLimit

/-- An import leaves the queue as it is or goes through all stages. -/
theorem Whole.import_cases (whole : Whole queue) (layout : Layout)
    (transaction : Transaction) (ik : IfDropped) :
    (∃ result, queue.import_ layout transaction ik = some (result, queue) ∧
      result ≠ .success) ∨
    ∃ queue', queue.import_ layout transaction ik = some (.success, queue') ∧
      Carries queue queue' ∧ Stages layout queue transaction queue' := by
  unfold TransactionQueue.import_
  split
  · refine .inl ⟨.zeroSignature, rfl, ?_⟩
    intro same
    cases same
  · split
    next checked =>
      have unknown : transaction.hash ∉ queue.known := by
        intro known
        rw [check, if_pos known] at checked
        cases checked
      have newHash : ∀ other, queue.Holds other →
          other.hash ≠ transaction.hash := by
        intro other held same
        rw [← same] at unknown
        exact unknown (whole.remembers other held)
      rcases whole.manageImport layout unknown with
        managed | ⟨queue', managed, stages⟩
      · refine .inl ⟨.overbidGasPrice, managed, ?_⟩
        intro same
        cases same
      · obtain ⟨result, last, managed', consistent, imports⟩ :=
          whole.consistent.manageImport whole.distinct layout newHash
        rw [managed] at managed'
        cases managed'
        exact .inr ⟨queue', managed, ⟨⟨consistent,
          whole.distinct.enter newHash imports.holds,
          imports.remembers whole.remembers⟩, imports.limit,
          imports.futureLimit⟩, stages⟩
    next result notSuccess =>
      exact .inl ⟨_, rfl, notSuccess⟩

/-! ## Runs -/

theorem Carries.trans {queue'' : TransactionQueue}
    (first : Carries queue queue') (second : Carries queue' queue'') :
    Carries queue queue'' :=
  ⟨second.whole, second.limit.trans first.limit,
    second.futureLimit.trans first.futureLimit⟩

theorem Whole.discards (whole : Whole queue) (consistent : Consistent queue')
    (discards : Discards queue queue') : Carries queue queue' :=
  ⟨⟨consistent, whole.distinct.mono discards.holds,
    discards.remembers whole.consistent whole.distinct whole.remembers⟩,
    discards.limit, discards.futureLimit⟩

theorem Whole.remove (whole : Whole queue) (txHash : H256) :
    ∃ queue', queue.remove txHash = some queue' ∧ Carries queue queue' ∧
      Removes txHash queue queue' := by
  obtain ⟨queue', removed, consistent, removes⟩ :=
    whole.consistent.remove txHash
  exact ⟨queue', removed, whole.discards consistent removes.discards, removes⟩

theorem Whole.clear (queue : TransactionQueue) : Whole queue.clear := by
  refine ⟨.clear queue, ?_, ?_⟩
  · rintro first second (member | waiting)
    · cases member
    · cases waiting
  · rintro transaction (member | waiting)
    · cases member
    · cases waiting

/-- Every call returns. -/
theorem Whole.serve (whole : Whole queue) (layout : Layout)
    (request : Request) :
    ∃ queue', queue.serve layout request = some queue' ∧
      Carries queue queue' := by
  cases request with
  | import_ transaction ik =>
      rcases whole.import_cases layout transaction ik with
        ⟨result, imported, -⟩ | ⟨queue', imported, carries, -⟩
      · refine ⟨queue, ?_, whole, rfl, rfl⟩
        rw [TransactionQueue.serve, imported]
        rfl
      · refine ⟨queue', ?_, carries⟩
        rw [TransactionQueue.serve, imported]
        rfl
  | drop txHash =>
      show ∃ queue', queue.drop txHash = some queue' ∧ Carries queue queue'
      unfold TransactionQueue.drop
      split
      · exact ⟨queue, rfl, whole, rfl, rfl⟩
      · let marked : TransactionQueue :=
          { queue with dropped := insert txHash queue.dropped }
        have wholeMarked : Whole marked :=
          ⟨whole.consistent.setHashes _ _, whole.distinct, whole.remembers⟩
        obtain ⟨queue', removed, carries, -⟩ := wholeMarked.remove txHash
        exact ⟨queue', removed, carries.whole, carries.limit,
          carries.futureLimit⟩
  | dropGood transaction =>
      obtain ⟨middle, made, consistent, promotes⟩ :=
        whole.consistent.makeCurrent whole.distinct layout transaction
      have limits := promotes.limits
      have carries : Carries queue middle := by
        refine ⟨⟨consistent, whole.distinct.mono promotes.holds, ?_⟩,
          limits.limit, limits.futureLimit⟩
        intro other held
        rw [limits.known]
        exact whole.remembers other (promotes.holds other held)
      show ∃ queue', queue.dropGood layout transaction = some queue' ∧
        Carries queue queue'
      unfold TransactionQueue.dropGood
      rw [made]
      simp only [Option.bind_eq_bind, Option.bind_some]
      split
      · exact ⟨middle, rfl, carries⟩
      · obtain ⟨queue', removed, after, -⟩ :=
          carries.whole.remove transaction.hash
        exact ⟨queue', removed, carries.trans after⟩
  | setFuture txHash =>
      obtain ⟨consistent, limits, -, holds⟩ :=
        whole.consistent.setFuture txHash
      refine ⟨queue.setFuture txHash, rfl, ⟨consistent,
        whole.distinct.mono fun other => (holds other).mp, ?_⟩, limits.limit,
        limits.futureLimit⟩
      intro other held
      rw [limits.known]
      exact whole.remembers other ((holds other).mp held)
  | clear => exact ⟨queue.clear, rfl, .clear queue, rfl, rfl⟩

theorem Whole.run (whole : Whole queue) (requests : List (Layout × Request)) :
    ∃ queue', queue.run requests = some queue' ∧ Carries queue queue' := by
  induction requests generalizing queue with
  | nil => exact ⟨queue, rfl, whole, rfl, rfl⟩
  | cons request requests induction =>
      obtain ⟨middle, served, carries⟩ :=
        whole.serve request.1 request.2
      obtain ⟨queue', ran, after⟩ := induction carries.whole
      refine ⟨queue', ?_, carries.trans after⟩
      rw [TransactionQueue.run, List.foldlM_cons, served]
      exact ran

/-- A queue with nothing in it. -/
theorem Whole.initial (limit futureLimit : UInt32) :
    Whole { limit, futureLimit } :=
  Whole.clear { limit, futureLimit }

/-- After a successful import both parts are within their limits. -/
theorem Stages.within (stages : Stages layout queue transaction queue')
    (carries : Carries queue queue') :
    queue'.current.length ≤ queue.limit.toNat ∧
      queue'.futureSize ≤ queue.futureLimit := by
  obtain ⟨replaced, cleared, entered, promoted, trimmed, -, -, -, -, -, trims,
    cuts⟩ := stages
  constructor
  · rw [← carries.limit]
    exact trimCurrent_within cuts
  · have within := trimFuture_within trims
    obtain ⟨-, size, limit⟩ := trimCurrent_future cuts
    rw [← carries.futureLimit, size, limit]
    exact within

end TransactionQueue

end Aecmio
