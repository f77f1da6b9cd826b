import Aecmio.Queue.Consistency

/-!
# What a history leaves in the transaction queue

A future transaction that is replaced, or that the limit of the future pushes
out, stays in the set of known hashes.  The comparison of the multiset changes
under the transactions in it, so one that is entered later may end up on the
wrong side of another of its sender.  A transaction that is dropped while it
waits is not taken out of the future.  Each result names the calls that do
none of this.
-/

namespace Aecmio

namespace TransactionQueue

variable {queue queue' : TransactionQueue} {layout : Layout}
  {transaction : Transaction}

/-! ## Known hashes -/

theorem topTransactions_sublist (queue : TransactionQueue) (limit : Nat)
    (avoid : Finset H256) :
    (queue.topTransactions limit avoid).Sublist queue.current :=
  (List.take_sublist _ _).trans List.filter_sublist

/-- The call may bring a dropped transaction back. -/
def Request.Revives (txHash : H256) : Request → Prop
  | .import_ transaction ik => transaction.hash = txHash ∧ ik = .retry
  | .clear => True
  | _ => False

/-- The hash is dropped and no transaction of that hash is held. -/
structure Gone (txHash : H256) (queue : TransactionQueue) : Prop where
  dropped : txHash ∈ queue.dropped
  absent : ∀ other, queue.Holds other → other.hash ≠ txHash

theorem Gone.serves {txHash : H256} {request : Request}
    (serves : Serves layout queue request queue')
    (stays : ¬ request.Revives txHash) (gone : Gone txHash queue) :
    Gone txHash queue' := by
  constructor
  · refine serves.dropped ?_ gone.dropped
    intro cleared
    rw [cleared] at stays
    exact stays trivial
  · intro other held same
    rcases serves.holds other held with before | ⟨ik, imported, checked⟩
    · exact gone.absent other before same
    · subst imported
      unfold check at checked
      split at checked
      · cases checked
      · split at checked
        · cases checked
        · rename_i notIgnored
          refine stays ⟨same, ?_⟩
          rw [same] at notIgnored
          cases ik with
          | ignore => exact absurd ⟨gone.dropped, rfl⟩ notIgnored
          | retry => rfl

/-- A transaction of a map starts the chain from its nonce. -/
theorem NonceMap.mem_chain {nonces : NonceMap}
    (member : transaction ∈ nonces.transactions) :
    transaction ∈ nonces.chain transaction.nonce := by
  unfold chain
  have found : transaction ∈ nonces.transactions.dropWhile
      fun other => other.nonce ≠ transaction.nonce := by
    rw [← @List.takeWhile_append_dropWhile _
      (fun other => decide (other.nonce ≠ transaction.nonce))
      nonces.transactions] at member
    rcases List.mem_append.mp member with before | after
    · have different := List.mem_takeWhile_imp before
      simp at different
    · exact after
  cases listed : nonces.transactions.dropWhile
      fun other => other.nonce ≠ transaction.nonce with
  | nil =>
      rw [listed] at found
      cases found
  | cons first rest =>
      have same : first.nonce = transaction.nonce := by
        have nonempty : nonces.transactions.dropWhile
            (fun other => other.nonce ≠ transaction.nonce) ≠ [] := by
          rw [listed]
          exact List.cons_ne_nil _ _
        have stops := List.head_dropWhile_not _ nonempty
        rw [decide_eq_false_iff_not, not_not] at stops
        simpa only [listed, List.head_cons] using stops
      have firstMember : first ∈ nonces.transactions := by
        refine (List.dropWhile_sublist fun other : Transaction =>
          decide (other.nonce ≠ transaction.nonce)).subset ?_
        rw [listed]
        exact List.mem_cons_self
      rw [NonceMap.eq_of_nonce firstMember member same, consecutive,
        if_pos rfl]
      exact List.mem_cons_self

/-- What waits becomes current when the transaction before it is mined. -/
theorem Sound.dropGood_promotes {offered : Transaction → Prop}
    (sound : Sound offered queue) (unique : HashUnique offered)
    (layout : Layout) {mined waiting : Transaction}
    (waits : waiting ∈ queue.nextChain mined)
    (different : waiting.hash ≠ mined.hash) :
    ∃ queue', queue.dropGood layout mined = some queue' ∧
      waiting ∈ queue'.current := by
  obtain ⟨middle, made, consistent, promotes⟩ :=
    sound.consistent.makeCurrent (sound.distinct unique) layout mined
  have current := (promotes.current waiting).mpr (.inr waits)
  obtain ⟨queue', removed, -, removes⟩ := consistent.remove mined.hash
  rw [TransactionQueue.dropGood, made]
  simp only [Option.bind_eq_bind, Option.bind_some]
  split
  · exact ⟨middle, rfl, current⟩
  · exact ⟨queue', removed, (removes.current waiting).mpr
      ⟨current, different⟩⟩

/-- A transaction that is dropped while it waits comes back. -/
theorem Sound.waiting_returns {offered : Transaction → Prop}
    (sound : Sound offered queue) (unique : HashUnique offered)
    (layout : Layout) {waiting : Transaction} (waits : queue.Waits waiting)
    (known : waiting.hash ∈ queue.known) :
    ∃ mined queue', queue.run [(layout, .drop waiting.hash),
        (layout, .dropGood mined)] = some queue' ∧
      waiting ∈ queue'.current := by
  obtain ⟨middle, dropped, soundMiddle, -, effect⟩ :=
    sound.drop unique layout waiting.hash
  obtain ⟨-, -, future⟩ := effect known
  obtain ⟨otherHash, different⟩ : ∃ otherHash,
      waiting.hash ≠ otherHash := by
    by_cases zero : waiting.hash = hashOfNat 0
    · exact ⟨hashOfNat 1, by rw [zero]; decide +kernel⟩
    · exact ⟨hashOfNat 0, zero⟩
  -- A block has the nonce before it.
  let mined : Transaction :=
    { waiting with hash := otherHash, nonce := waiting.nonce - 1 }
  have inChain : waiting ∈ middle.nextChain mined := by
    have next : mined.nonce + 1 = waiting.nonce := BitVec.sub_add_cancel _ _
    unfold nextChain
    rw [next, future]
    exact NonceMap.mem_chain waits
  obtain ⟨queue', good, current⟩ :=
    soundMiddle.dropGood_promotes unique layout inChain different
  refine ⟨mined, queue', ?_, current⟩
  simp only [TransactionQueue.run, List.foldlM_cons, List.foldlM_nil,
    TransactionQueue.serve, dropped, good, Option.bind_eq_bind,
    Option.bind_some]
  rfl

/-- One that does not wait stays away. -/
theorem Sound.drop_lasts {offered : Transaction → Prop}
    (sound : Sound offered queue) (unique : HashUnique offered)
    (layout : Layout) {txHash : H256} (known : txHash ∈ queue.known)
    (absent : ∀ other, queue.Waits other → other.hash ≠ txHash)
    (after : List (Layout × Request))
    (new : ∀ other, Imported after other → offered other)
    (stays : ∀ entry ∈ after, ¬ entry.2.Revives txHash) :
    ∃ queue', queue.run ((layout, .drop txHash) :: after) = some queue' ∧
      Gone txHash queue' := by
  obtain ⟨middle, dropped, soundMiddle, -, effect⟩ :=
    sound.drop unique layout txHash
  obtain ⟨marked, away, future⟩ := effect known
  have gone : Gone txHash middle := by
    refine ⟨marked, ?_⟩
    intro other held
    rcases held with current | waits
    · exact away other current
    · apply absent other
      unfold Waits at waits ⊢
      rwa [future] at waits
  obtain ⟨queue', ranAfter, -, goneAfter⟩ := soundMiddle.run unique after new
    (throughout_of_forall stays) (Gone txHash)
    (fun _ _ _ _ staysHere serves => Gone.serves serves staysHere) gone
  refine ⟨queue', ?_, goneAfter⟩
  rw [TransactionQueue.run, List.foldlM_cons]
  show (queue.drop txHash).bind _ = _
  rw [dropped]
  exact ranAfter

/-- A known transaction that is dropped stays away, whatever is called after
it, exactly when it does not wait in the future. -/
theorem drop_lasts_iff (limit futureLimit : UInt32)
    (before : List (Layout × Request))
    (unique : HashUnique (Imported before))
    (ran : TransactionQueue.run { limit, futureLimit } before = some queue)
    (txHash : H256) (known : txHash ∈ queue.knownTransactions)
    (layout : Layout) :
    (∀ after, HashUnique (Imported (before ++ after)) →
      (∀ entry ∈ after, ¬ entry.2.Revives txHash) →
      ∃ queue', queue.run ((layout, .drop txHash) :: after) = some queue' ∧
        ∀ count avoid, ∀ other ∈ queue'.topTransactions count avoid,
          other.hash ≠ txHash) ↔
      ∀ other, queue.Waits other → other.hash ≠ txHash := by
  have soundOf : ∀ offered, HashUnique offered →
      (∀ other, Imported before other → offered other) →
      Sound offered queue := by
    intro offered uniqueOffered new
    have anything : Throughout (fun _ _ _ => True) { limit, futureLimit }
        before := throughout_of_forall fun _ _ => trivial
    obtain ⟨reached, ranAgain, sound, -⟩ := (Sound.initial offered limit
      futureLimit).run uniqueOffered before new anything (fun _ => True)
      (fun _ _ _ _ _ _ => id) trivial
    rw [ran] at ranAgain
    rwa [Option.some.inj ranAgain]
  constructor
  · intro lasts other waits same
    subst same
    obtain ⟨mined, queue', reached, current⟩ :=
      (soundOf _ unique fun _ => id).waiting_returns unique layout waits known
    have old : ∀ transaction,
        Imported (before ++ [(layout, .dropGood mined)]) transaction →
          Imported before transaction := by
      intro transaction imported
      obtain ⟨layout, ik, member⟩ := imported
      refine ⟨layout, ik, ?_⟩
      simpa using member
    have uniqueAll : HashUnique
        (Imported (before ++ [(layout, .dropGood mined)])) := by
      intro first second importedFirst importedSecond
      exact unique first second (old first importedFirst)
        (old second importedSecond)
    obtain ⟨last, ranLast, away⟩ := lasts _ uniqueAll (by
      intro entry member
      rw [List.mem_singleton.mp member]
      exact id)
    rw [reached] at ranLast
    cases ranLast
    refine away queue'.current.length ∅ other ?_ rfl
    simpa [topTransactions] using current
  · intro absent after uniqueAll stays
    have sound := soundOf (Imported (before ++ after)) uniqueAll (by
      intro other imported
      obtain ⟨layout, ik, member⟩ := imported
      exact ⟨layout, ik, List.mem_append_left _ member⟩)
    obtain ⟨queue', ranAfter, gone⟩ := sound.drop_lasts uniqueAll layout known
      absent after (by
        intro other imported
        obtain ⟨layout, ik, member⟩ := imported
        exact ⟨layout, ik, List.mem_append_right _ member⟩) stays
    refine ⟨queue', ranAfter, ?_⟩
    intro count avoid other member
    exact gone.absent other
      (.inl ((topTransactions_sublist _ count avoid).subset member))

/-- The nonce 1 is set back, dropped and promoted by an import of nonce 0. -/
theorem dropped_transaction_listed :
    ∃ queue queue', TransactionQueue.run {}
      [(layoutSample, .import_ (transactionSample 1 7 1 10) .ignore),
        (layoutSample, .setFuture (hashOfNat 1))] = some queue ∧
      hashOfNat 1 ∈ queue.knownTransactions ∧
      queue.run [(layoutSample, .drop (hashOfNat 1)),
        (layoutSample, .import_ (transactionSample 2 7 0 50) .ignore)] =
        some queue' ∧
      transactionSample 1 7 1 10 ∈ queue'.topTransactions 10 ∅ := by
  have first : (TransactionQueue.run {}
      [(layoutSample, .import_ (transactionSample 1 7 1 10) .ignore),
        (layoutSample, .setFuture (hashOfNat 1))]).map
      (fun queue => decide (hashOfNat 1 ∈ queue.known) &&
        ((queue.run [(layoutSample, .drop (hashOfNat 1)),
          (layoutSample, .import_ (transactionSample 2 7 0 50) .ignore)]).map
          fun queue' => decide (transactionSample 1 7 1 10 ∈
            queue'.topTransactions 10 ∅)) = some true) = some true := by
    decide +kernel
  obtain ⟨queue, ran, both⟩ := Option.map_eq_some_iff.mp first
  rw [Bool.and_eq_true, decide_eq_true_eq, decide_eq_true_eq,
    Option.map_eq_some_iff] at both
  obtain ⟨known, queue', ranAfter, listed⟩ := both
  exact ⟨queue, queue', ran, known, ranAfter, of_decide_eq_true listed⟩

/-- A current transaction is dropped. -/
theorem drop_lasts_iff_sample :
    ∃ queue, TransactionQueue.run { limit := 1024, futureLimit := 1024 }
      [(layoutSample, .import_ (transactionSample 1 7 1 10) .ignore)] =
        some queue ∧
      ∃ queue', queue.run [(layoutSample, .drop (hashOfNat 1)),
        (layoutSample, .import_ (transactionSample 1 7 1 10) .ignore)] =
        some queue' ∧
      ∀ count avoid, ∀ other ∈ queue'.topTransactions count avoid,
        other.hash ≠ hashOfNat 1 := by
  have evaluated : (TransactionQueue.run { limit := 1024, futureLimit := 1024 }
      [(layoutSample, .import_ (transactionSample 1 7 1 10) .ignore)]).map
      (fun queue => (queue.future.entries.length,
        decide (hashOfNat 1 ∈ queue.known))) = some (0, true) := by
    decide +kernel
  obtain ⟨queue, ran, parts⟩ := Option.map_eq_some_iff.mp evaluated
  simp only [Prod.mk.injEq, List.length_eq_zero_iff, decide_eq_true_eq]
    at parts
  obtain ⟨future, known⟩ := parts
  have onlyOne : ∀ requests : List (Layout × Request),
      (∀ entry ∈ requests, entry.2 =
        .import_ (transactionSample 1 7 1 10) .ignore) →
      HashUnique (Imported requests) := by
    intro requests all first second importedFirst importedSecond _
    obtain ⟨_, _, firstMember⟩ := importedFirst
    obtain ⟨_, _, secondMember⟩ := importedSecond
    have firstEq := all _ firstMember
    have secondEq := all _ secondMember
    simp only [Request.import_.injEq] at firstEq secondEq
    rw [firstEq.1, secondEq.1]
  refine ⟨queue, ran, ?_⟩
  refine (drop_lasts_iff 1024 1024 _ (onlyOne _ (by simp)) ran (hashOfNat 1)
    known layoutSample).mpr ?_ _ (onlyOne _ (by simp)) ?_
  · intro other waits
    have nothing := BySender.lookup_of_mem waits
    rw [AList.lookup, future] at nothing
    cases nothing
  · intro entry member
    rw [List.mem_singleton.mp member]
    intro revives
    cases revives.2

end TransactionQueue

end Aecmio
