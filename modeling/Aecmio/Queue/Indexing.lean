import Aecmio.Queue.Nonces

/-!
# The indices of the transaction queue

The multiset and its two indices hold the same transactions, one for each
sender and nonce.  Each routine has one lemma that says what it does to the
transactions that are held.
-/

namespace Aecmio

namespace TransactionQueue

/-! ## What the indices have in common -/

/-- The multiset and its indices hold the same transactions, one for each
sender and nonce. -/
structure Indexed (queue : TransactionQueue) : Prop where
  nodup : queue.current.Nodup
  byHash : ∀ txHash transaction,
    queue.currentByHash.lookup txHash = some transaction ↔
      transaction ∈ queue.current ∧ transaction.hash = txHash
  bySender : ∀ transaction, transaction ∈ queue.current ↔
    transaction ∈ (queue.currentByAddressAndNonce.get
      transaction.sender).transactions
  senders : ∀ sender nonces,
    queue.currentByAddressAndNonce.lookup sender = some nonces →
      nonces.isEmpty = false ∧
        ∀ transaction ∈ nonces.transactions, transaction.sender = sender

/-- The future transactions are filed under their senders and counted. -/
structure Filed (queue : TransactionQueue) : Prop where
  senders : ∀ sender nonces, queue.future.lookup sender = some nonces →
    nonces.isEmpty = false ∧
      ∀ transaction ∈ nonces.transactions, transaction.sender = sender
  size : queue.futureSize = UInt32.ofNat queue.future.count

/-- A future transaction of the queue. -/
def Waits (queue : TransactionQueue) (transaction : Transaction) : Prop :=
  transaction ∈ (queue.future.get transaction.sender).transactions

/-- What a routine on current transactions leaves alone. -/
structure SameRest (queue queue' : TransactionQueue) : Prop where
  future : queue'.future = queue.future
  futureSize : queue'.futureSize = queue.futureSize
  limit : queue'.limit = queue.limit
  futureLimit : queue'.futureLimit = queue.futureLimit
  known : queue'.known = queue.known
  dropped : queue'.dropped = queue.dropped

variable {queue queue' : TransactionQueue} {layout : Layout}
  {transaction : Transaction}

theorem SameRest.trans {queue'' : TransactionQueue}
    (first : SameRest queue queue') (second : SameRest queue' queue'') :
    SameRest queue queue'' :=
  ⟨second.future.trans first.future,
    second.futureSize.trans first.futureSize,
    second.limit.trans first.limit,
    second.futureLimit.trans first.futureLimit,
    second.known.trans first.known,
    second.dropped.trans first.dropped⟩

namespace Indexed

theorem lookup_sender (indexed : Indexed queue)
    (member : transaction ∈ queue.current) :
    queue.currentByAddressAndNonce.lookup transaction.sender =
      some (queue.currentByAddressAndNonce.get transaction.sender) :=
  BySender.lookup_of_mem ((indexed.bySender transaction).mp member)

theorem sender_of_mem (indexed : Indexed queue) {sender : Address}
    (member : transaction ∈
      (queue.currentByAddressAndNonce.get sender).transactions) :
    transaction.sender = sender :=
  (indexed.senders sender _ (BySender.lookup_of_mem member)).2 transaction
    member

/-- There is one transaction for a sender and a nonce. -/
theorem eq_of_nonce (indexed : Indexed queue) {other : Transaction}
    (first : transaction ∈ queue.current) (second : other ∈ queue.current)
    (sender : transaction.sender = other.sender)
    (nonce : transaction.nonce = other.nonce) : transaction = other := by
  have firstFiled := (indexed.bySender transaction).mp first
  have secondFiled := (indexed.bySender other).mp second
  rw [sender] at firstFiled
  exact NonceMap.eq_of_nonce firstFiled secondFiled nonce

/-- Every current transaction has a height. -/
theorem height_isSome (indexed : Indexed queue)
    (member : transaction ∈ queue.current) :
    (queue.height transaction).isSome := by
  have filed := (indexed.bySender transaction).mp member
  unfold height
  rw [indexed.lookup_sender member]
  cases listed : (queue.currentByAddressAndNonce.get
      transaction.sender).transactions with
  | nil =>
      rw [listed] at filed
      cases filed
  | cons lowest rest => simp [listed]

/-! ## Entering and removing -/

/-- With its nonce entered, the new transaction can be compared with every
current one. -/
theorem less_isSome (indexed : Indexed queue) {other : Transaction}
    (member : other ∈ queue.current) :
    ((queue.enterNonce transaction).less transaction other).isSome := by
  have heights : ∀ either, either = transaction ∨ either ∈ queue.current →
      ((queue.enterNonce transaction).height either).isSome := by
    intro either cases_
    unfold height enterNonce
    by_cases same : either.sender = transaction.sender
    · rw [same, AList.lookup_insert]
      have filled := @NonceMap.assign_ne_empty
        (queue.currentByAddressAndNonce.get transaction.sender) transaction
      cases listed : ((queue.currentByAddressAndNonce.get
          transaction.sender).assign transaction).transactions with
      | nil => simp [NonceMap.isEmpty, listed] at filled
      | cons lowest rest => simp [listed]
    · rw [AList.lookup_insert_ne same]
      rcases cases_ with rfl | current
      · exact absurd rfl same
      · exact indexed.height_isSome current
  obtain ⟨height1, first⟩ := Option.isSome_iff_exists.mp
    (heights transaction (.inl rfl))
  obtain ⟨height2, second⟩ := Option.isSome_iff_exists.mp
    (heights other (.inr member))
  simp [less, first, second]

/-- A transaction that clashes with no current one is entered. -/
theorem enter (indexed : Indexed queue) (layout : Layout)
    (freshHash : ∀ other ∈ queue.current, other.hash ≠ transaction.hash)
    (freshNonce : ∀ other ∈ queue.current,
      other.sender = transaction.sender →
        other.nonce ≠ transaction.nonce) :
    ∃ queue', queue.enter layout transaction = some queue' ∧
      Indexed queue' ∧ SameRest queue queue' ∧
      ∃ front back, queue.current = front ++ back ∧
        queue'.current = front ++ transaction :: back ∧
        SearchTrees.Gap (queue.enterNonce transaction).less transaction front
          back := by
  have inserts := @SearchTrees.insert_isSome _
    (queue.enterNonce transaction).less transaction
    (layout.shape queue.current) (by
      intro other member
      rw [layout.inorder_shape] at member
      exact indexed.less_isSome member)
  obtain ⟨tree, inserted⟩ := Option.isSome_iff_exists.mp inserts
  obtain ⟨front, back, old, new, gap⟩ := SearchTrees.inorder_insert inserted
  rw [layout.inorder_shape] at old
  have emplaced : (queue.enterNonce transaction).emplace layout transaction =
      some (SearchTrees.inorder tree) := by
    show (SearchTrees.insert (queue.enterNonce transaction).less transaction
      (layout.shape queue.current)).bind _ = _
    rw [inserted]
    rfl
  have mem_new : ∀ other, other ∈ SearchTrees.inorder tree ↔
      other = transaction ∨ other ∈ queue.current := by
    intro other
    rw [new, old]
    simp only [List.mem_append, List.mem_cons]
    tauto
  have entered : queue.enter layout transaction = some
      { queue.enterNonce transaction with
        current := SearchTrees.inorder tree
        currentByHash := queue.currentByHash.insert transaction.hash
          transaction } := by
    rw [TransactionQueue.enter, emplaced]
    rfl
  refine ⟨_, entered, ?_, ⟨rfl, rfl, rfl, rfl, rfl, rfl⟩, front, back, old,
    new, gap⟩
  constructor
  · show (SearchTrees.inorder tree).Nodup
    rw [new, List.nodup_middle, ← old, List.nodup_cons]
    refine ⟨?_, indexed.nodup⟩
    intro member
    exact freshHash transaction member rfl
  · intro txHash other
    show AList.lookup txHash (queue.currentByHash.insert transaction.hash
      transaction) = some other ↔ other ∈ SearchTrees.inorder tree ∧ _
    rw [mem_new]
    by_cases same : txHash = transaction.hash
    · subst same
      rw [AList.lookup_insert, Option.some.injEq]
      constructor
      · intro equal
        subst equal
        exact ⟨.inl rfl, rfl⟩
      · intro both
        obtain ⟨equal | member, hash⟩ := both
        · exact equal.symm
        · exact absurd hash (freshHash other member)
    · rw [AList.lookup_insert_ne same, indexed.byHash]
      constructor
      · intro both
        exact ⟨.inr both.1, both.2⟩
      · intro both
        obtain ⟨equal | member, hash⟩ := both
        · rw [equal] at hash
          exact absurd hash.symm same
        · exact ⟨member, hash⟩
  · intro other
    show other ∈ SearchTrees.inorder tree ↔
      other ∈ (BySender.get (queue.currentByAddressAndNonce.insert _ _)
        other.sender).transactions
    rw [mem_new]
    by_cases same : other.sender = transaction.sender
    · rw [same, BySender.get_insert, NonceMap.mem_assign, ← same,
        indexed.bySender other]
      constructor
      · intro cases_
        refine cases_.imp id fun member => ⟨member, ?_⟩
        exact freshNonce other ((indexed.bySender other).mpr member) same
      · intro cases_
        exact cases_.imp id And.left
    · rw [BySender.get_insert_ne same, indexed.bySender other]
      constructor
      · intro cases_
        rcases cases_ with equal | member
        · rw [equal] at same
          exact absurd rfl same
        · exact member
      · exact Or.inr
  · intro sender nonces found
    change AList.lookup sender (queue.currentByAddressAndNonce.insert _ _) = _
      at found
    by_cases same : sender = transaction.sender
    · subst same
      rw [AList.lookup_insert, Option.some.injEq] at found
      rw [← found]
      refine ⟨NonceMap.assign_ne_empty, ?_⟩
      intro other member
      rcases NonceMap.mem_assign.mp member with equal | ⟨filed, -⟩
      · rw [equal]
      · exact indexed.sender_of_mem filed
    · rw [AList.lookup_insert_ne same] at found
      exact indexed.senders sender nonces found

/-- The comparison of two transactions of a sender. -/
theorem less_of_sender (indexed : Indexed queue) {other : Transaction}
    (member : other ∈ queue.current)
    (sender : other.sender = transaction.sender)
    (nonce : other.nonce ≠ transaction.nonce) :
    (queue.enterNonce transaction).less transaction other =
      some (decide (transaction.nonce < other.nonce)) := by
  let nonces := (queue.currentByAddressAndNonce.get
    transaction.sender).assign transaction
  have found : (queue.enterNonce transaction).currentByAddressAndNonce.lookup
      transaction.sender = some nonces := AList.lookup_insert _
  have otherFiled : other ∈ nonces.transactions := by
    refine NonceMap.mem_assign.mpr (.inr ⟨?_, nonce⟩)
    rw [← sender]
    exact (indexed.bySender other).mp member
  have filed : transaction ∈ nonces.transactions :=
    NonceMap.mem_assign.mpr (.inl rfl)
  cases listed : nonces.transactions with
  | nil =>
      rw [listed] at filed
      cases filed
  | cons lowest rest =>
      have least : ∀ either ∈ nonces.transactions,
          lowest.nonce ≤ either.nonce := by
        intro either eitherFiled
        have ordered := nonces.ordered
        rw [listed] at eitherFiled ordered
        rcases List.mem_cons.mp eitherFiled with equal | later
        · rw [equal]
          exact BitVec.le_refl _
        · exact BitVec.le_of_lt ((List.pairwise_cons.mp ordered).1 either
            later)
      have height1 : (queue.enterNonce transaction).height transaction =
          some (transaction.nonce - lowest.nonce) := by
        simp [height, found, listed]
      have height2 : (queue.enterNonce transaction).height other =
          some (other.nonce - lowest.nonce) := by
        rw [height, sender, found]
        simp [listed]
      have below := BitVec.le_def.mp (least transaction filed)
      have belowOther := BitVec.le_def.mp (least other otherFiled)
      have differ : transaction.nonce.toNat ≠ other.nonce.toNat := by
        intro equal
        exact nonce (BitVec.eq_of_toNat_eq equal).symm
      simp only [less, height1, height2, Option.bind_eq_bind,
        Option.bind_some]
      refine congrArg some (decide_eq_decide.mpr ?_)
      simp only [BitVec.lt_def, ← BitVec.toNat_inj]
      rw [BitVec.toNat_sub_of_le (least transaction filed),
        BitVec.toNat_sub_of_le (least other otherFiled)]
      omega

end Indexed

/-! ## The order of the nonces -/

/-- The transactions of each sender stand in the order of their nonces. -/
def Ranked (list : List Transaction) : Prop :=
  list.Pairwise fun first second =>
    first.sender = second.sender → first.nonce < second.nonce

/-- What stands before a lower nonce of the sender does not rank behind the
transaction, and what stands behind a higher one ranks behind it. -/
def Fits (queue : TransactionQueue) (transaction : Transaction) : Prop :=
  queue.current.Pairwise fun first second =>
    (second.sender = transaction.sender → second.nonce < transaction.nonce →
      (queue.enterNonce transaction).less transaction first = some false) ∧
    (first.sender = transaction.sender → transaction.nonce < first.nonce →
      (queue.enterNonce transaction).less transaction second = some true)

/-- Each of the transactions fits when it is entered after the others. -/
def FitsAll (layout : Layout) : TransactionQueue → List Transaction → Prop
  | _, [] => True
  | queue, entered :: rest =>
      queue.Fits entered ∧ ∀ queue',
        queue.enter layout entered = some queue' → FitsAll layout queue' rest

namespace Indexed

theorem ranked_enter (indexed : Indexed queue)
    {front back : List Transaction} (old : queue.current = front ++ back)
    (freshNonce : ∀ other ∈ queue.current,
      other.sender = transaction.sender → other.nonce ≠ transaction.nonce)
    (gap : SearchTrees.Gap (queue.enterNonce transaction).less transaction
      front back)
    (fits : queue.Fits transaction) (ranked : Ranked queue.current) :
    Ranked (front ++ transaction :: back) := by
  unfold Ranked at ranked ⊢
  unfold Fits at fits
  have inFront : ∀ other ∈ front, other ∈ queue.current := by
    intro other member
    rw [old]
    exact List.mem_append_left _ member
  have inBack : ∀ other ∈ back, other ∈ queue.current := by
    intro other member
    rw [old]
    exact List.mem_append_right _ member
  rw [old, List.pairwise_append] at ranked fits
  obtain ⟨rankedFront, rankedBack, across⟩ := ranked
  obtain ⟨fitsFront, fitsBack, -⟩ := fits
  have behind : ∀ other ∈ back, other.sender = transaction.sender →
      transaction.nonce < other.nonce := by
    intro other member sender
    by_contra notAbove
    have different := freshNonce other (inBack other member) sender
    have lower : other.nonce < transaction.nonce :=
      BitVec.lt_of_le_ne (BitVec.not_lt.mp notAbove) different
    cases back with
    | nil => cases member
    | cons first rest =>
        have chosen := gap.first first rfl
        rcases List.mem_cons.mp member with equal | later
        · subst equal
          rw [indexed.less_of_sender (inBack other member) sender different,
            Option.some.injEq, decide_eq_true_eq] at chosen
          exact notAbove chosen
        · have refused := ((List.pairwise_cons.mp fitsBack).1 other
            later).1 sender lower
          rw [refused] at chosen
          cases chosen
  have before : ∀ other ∈ front, other.sender = transaction.sender →
      other.nonce < transaction.nonce := by
    intro other member sender
    by_contra notBelow
    have different := freshNonce other (inFront other member) sender
    have higher : transaction.nonce < other.nonce :=
      BitVec.lt_of_le_ne (BitVec.not_lt.mp notBelow) different.symm
    rcases List.eq_nil_or_concat front with none | ⟨init, last, split⟩
    · rw [none] at member
      cases member
    · rw [List.concat_eq_append] at split
      subst split
      have refused := gap.last last (by simp)
      rcases List.mem_append.mp member with earlier | final
      · have chosen := ((List.pairwise_append.mp fitsFront).2.2 other
          earlier last List.mem_cons_self).2 sender higher
        rw [refused] at chosen
        cases chosen
      · have equal := List.mem_singleton.mp final
        subst equal
        rw [indexed.less_of_sender (inFront other member) sender different,
          Option.some.injEq, decide_eq_false_iff_not] at refused
        exact refused higher
  refine List.pairwise_append.mpr ⟨rankedFront,
    List.pairwise_cons.mpr ⟨?_, rankedBack⟩, ?_⟩
  · intro other member sender
    exact behind other member sender.symm
  · intro other member later laterMember
    rcases List.mem_cons.mp laterMember with equal | inRest
    · rw [equal]
      exact before other member
    · exact across other member later inRest

/-- A chain of transactions that clash neither with each other nor with
current ones. -/
theorem enterAll (indexed : Indexed queue) (layout : Layout)
    (chain : List Transaction)
    (freshHash : ∀ other ∈ queue.current, ∀ entered ∈ chain,
      other.hash ≠ entered.hash)
    (freshNonce : ∀ other ∈ queue.current, ∀ entered ∈ chain,
      other.sender = entered.sender → other.nonce ≠ entered.nonce)
    (apart : chain.Pairwise fun first second =>
      first.hash ≠ second.hash ∧ first.nonce ≠ second.nonce) :
    ∃ queue', chain.foldlM (TransactionQueue.enter layout) queue =
        some queue' ∧
      Indexed queue' ∧ SameRest queue queue' ∧
      (∀ other, other ∈ queue'.current ↔
        other ∈ queue.current ∨ other ∈ chain) ∧
      (FitsAll layout queue chain → Ranked queue.current →
        Ranked queue'.current) := by
  induction chain generalizing queue with
  | nil =>
      exact ⟨queue, rfl, indexed, ⟨rfl, rfl, rfl, rfl, rfl, rfl⟩, by simp,
        fun _ => id⟩
  | cons entered rest induction =>
      obtain ⟨apartHead, apartRest⟩ := List.pairwise_cons.mp apart
      have freshNonceHead : ∀ other ∈ queue.current,
          other.sender = entered.sender → other.nonce ≠ entered.nonce :=
        fun other member => freshNonce other member entered (by simp)
      obtain ⟨middle, first, indexedMiddle, same, front, back, old, new,
        gap⟩ := indexed.enter layout
          (fun other member => freshHash other member entered (by simp))
          freshNonceHead
      have memMiddle : ∀ other, other ∈ middle.current ↔
          other = entered ∨ other ∈ queue.current := by
        intro other
        rw [new, old]
        simp only [List.mem_append, List.mem_cons]
        tauto
      have freshHashRest : ∀ other ∈ middle.current, ∀ later ∈ rest,
          other.hash ≠ later.hash := by
        intro other member later laterMember
        rcases (memMiddle other).mp member with equal | old
        · rw [equal]
          exact (apartHead later laterMember).1
        · exact freshHash other old later (List.mem_cons_of_mem _ laterMember)
      have freshNonceRest : ∀ other ∈ middle.current, ∀ later ∈ rest,
          other.sender = later.sender → other.nonce ≠ later.nonce := by
        intro other member later laterMember sender
        rcases (memMiddle other).mp member with equal | old
        · rw [equal]
          exact (apartHead later laterMember).2
        · exact freshNonce other old later
            (List.mem_cons_of_mem _ laterMember) sender
      obtain ⟨last, others, indexedLast, sameLast, memLast, rankedLast⟩ :=
        induction indexedMiddle freshHashRest freshNonceRest apartRest
      refine ⟨last, ?_, indexedLast, same.trans sameLast, ?_, ?_⟩
      · rw [List.foldlM_cons, first]
        exact others
      · intro other
        rw [memLast, memMiddle, List.mem_cons]
        tauto
      · intro fits ranked
        refine rankedLast (fits.2 middle first) ?_
        rw [new]
        exact indexed.ranked_enter old freshNonceHead gap fits.1 ranked

theorem eq_of_hash (indexed : Indexed queue) {other : Transaction}
    (first : transaction ∈ queue.current) (second : other ∈ queue.current)
    (hash : transaction.hash = other.hash) : transaction = other := by
  have firstFound := (indexed.byHash _ transaction).mpr ⟨first, hash⟩
  have secondFound := (indexed.byHash _ other).mpr ⟨second, rfl⟩
  rw [firstFound] at secondFound
  exact Option.some.inj secondFound

end Indexed

/-- What `remove_WITH_LOCK` does to the transactions and the known hashes. -/
structure Removes (txHash : H256) (queue queue' : TransactionQueue) :
    Prop where
  current : ∀ other, other ∈ queue'.current ↔
    other ∈ queue.current ∧ other.hash ≠ txHash
  sublist : queue'.current.Sublist queue.current
  length : (∃ other ∈ queue.current, other.hash = txHash) →
    queue'.current.length + 1 = queue.current.length
  known : ∀ hash, hash ∈ queue'.known ↔ hash ∈ queue.known ∧
    ¬ (hash = txHash ∧ ∃ other ∈ queue.current, other.hash = txHash)
  future : queue'.future = queue.future
  futureSize : queue'.futureSize = queue.futureSize
  limit : queue'.limit = queue.limit
  futureLimit : queue'.futureLimit = queue.futureLimit
  dropped : queue'.dropped = queue.dropped

theorem Indexed.remove (indexed : Indexed queue) (txHash : H256) :
    ∃ queue', queue.remove txHash = some queue' ∧ Indexed queue' ∧
      Removes txHash queue queue' := by
  cases found : queue.currentByHash.lookup txHash with
  | none =>
      have absent : ∀ other ∈ queue.current, other.hash ≠ txHash := by
        intro other member hash
        rw [(indexed.byHash txHash other).mpr ⟨member, hash⟩] at found
        cases found
      refine ⟨queue, by rw [TransactionQueue.remove, found], indexed, ?_⟩
      refine ⟨?_, .refl _, ?_, ?_, rfl, rfl, rfl, rfl, rfl⟩
      · intro other
        exact ⟨fun member => ⟨member, absent other member⟩, And.left⟩
      · intro present
        obtain ⟨other, member, hash⟩ := present
        exact absurd hash (absent other member)
      · intro hash
        refine ⟨fun member => ⟨member, ?_⟩, And.left⟩
        intro both
        obtain ⟨-, other, otherMember, otherHash⟩ := both
        exact absent other otherMember otherHash
  | some transaction =>
      obtain ⟨member, rfl⟩ := (indexed.byHash _ _).mp found
      have filed := indexed.lookup_sender member
      have removed : queue.remove transaction.hash = some { queue with
          current := queue.current.erase transaction
          currentByHash := queue.currentByHash.erase transaction.hash
          currentByAddressAndNonce := queue.currentByAddressAndNonce.put
            transaction.sender
            ((queue.currentByAddressAndNonce.get transaction.sender).erase
              transaction.nonce)
          known := queue.known.erase transaction.hash } := by
        rw [TransactionQueue.remove, found]
        show (queue.currentByAddressAndNonce.lookup
          transaction.sender).bind _ = _
        rw [filed]
        rfl
      have mem_new : ∀ other, other ∈ queue.current.erase transaction ↔
          other ∈ queue.current ∧ other.hash ≠ transaction.hash := by
        intro other
        rw [indexed.nodup.mem_erase_iff]
        constructor
        · intro both
          refine ⟨both.2, ?_⟩
          intro hash
          exact both.1 (indexed.eq_of_hash both.2 member hash)
        · intro both
          refine ⟨?_, both.1⟩
          intro equal
          exact both.2 (congrArg Transaction.hash equal)
      refine ⟨_, removed, ⟨indexed.nodup.erase _, ?_, ?_, ?_⟩,
        ⟨mem_new, List.erase_sublist, ?_, ?_, rfl, rfl, rfl, rfl, rfl⟩⟩
      · intro txHash other
        show AList.lookup txHash (queue.currentByHash.erase transaction.hash) =
          some other ↔ other ∈ queue.current.erase transaction ∧ _
        rw [mem_new]
        by_cases same : txHash = transaction.hash
        · subst same
          rw [AList.lookup_erase]
          constructor
          · intro impossible
            cases impossible
          · intro both
            exact absurd both.2 both.1.2
        · rw [AList.lookup_erase_ne same, indexed.byHash]
          constructor
          · intro both
            obtain ⟨current, rfl⟩ := both
            exact ⟨⟨current, same⟩, rfl⟩
          · intro both
            exact ⟨both.1.1, both.2⟩
      · intro other
        show other ∈ queue.current.erase transaction ↔
          other ∈ (BySender.get (queue.currentByAddressAndNonce.put _ _)
            other.sender).transactions
        rw [mem_new]
        by_cases same : other.sender = transaction.sender
        · rw [same, BySender.get_put, NonceMap.mem_erase, ← same,
            ← indexed.bySender other]
          constructor
          · intro both
            refine ⟨both.1, ?_⟩
            intro nonce
            exact both.2 (congrArg Transaction.hash
              (indexed.eq_of_nonce both.1 member same nonce))
          · intro both
            refine ⟨both.1, ?_⟩
            intro hash
            exact both.2 (congrArg Transaction.nonce
              (indexed.eq_of_hash both.1 member hash))
        · rw [BySender.get_put_ne same, ← indexed.bySender other]
          refine ⟨And.left, fun current => ⟨current, ?_⟩⟩
          intro hash
          exact same (congrArg Transaction.sender
            (indexed.eq_of_hash current member hash))
      · intro sender nonces lookup
        change (queue.currentByAddressAndNonce.put _ _).lookup sender = _
          at lookup
        by_cases same : sender = transaction.sender
        · subst same
          obtain ⟨rfl, filled⟩ := BySender.lookup_put lookup
          refine ⟨filled, ?_⟩
          intro other otherMember
          exact indexed.sender_of_mem (NonceMap.mem_erase.mp otherMember).1
        · rw [BySender.lookup_put_ne same] at lookup
          exact indexed.senders sender nonces lookup
      · intro _
        show (queue.current.erase transaction).length + 1 = _
        have positive := List.length_pos_of_mem member
        rw [List.length_erase_of_mem member]
        omega
      · intro hash
        show hash ∈ queue.known.erase transaction.hash ↔ _
        rw [Finset.mem_erase]
        constructor
        · intro both
          exact ⟨both.2, fun equal => both.1 equal.1⟩
        · intro both
          exact ⟨fun equal => both.2 ⟨equal, transaction, member, rfl⟩, both.1⟩

/-! ## The future -/

/-- What a routine on future transactions leaves alone. -/
structure SameCurrent (queue queue' : TransactionQueue) : Prop where
  current : queue'.current = queue.current
  currentByHash : queue'.currentByHash = queue.currentByHash
  currentByAddressAndNonce :
    queue'.currentByAddressAndNonce = queue.currentByAddressAndNonce
  limit : queue'.limit = queue.limit
  futureLimit : queue'.futureLimit = queue.futureLimit
  known : queue'.known = queue.known
  dropped : queue'.dropped = queue.dropped

theorem SameCurrent.trans {queue'' : TransactionQueue}
    (first : SameCurrent queue queue') (second : SameCurrent queue' queue'') :
    SameCurrent queue queue'' :=
  ⟨second.current.trans first.current,
    second.currentByHash.trans first.currentByHash,
    second.currentByAddressAndNonce.trans first.currentByAddressAndNonce,
    second.limit.trans first.limit,
    second.futureLimit.trans first.futureLimit,
    second.known.trans first.known,
    second.dropped.trans first.dropped⟩

theorem Indexed.same (indexed : Indexed queue)
    (same : SameCurrent queue queue') : Indexed queue' := by
  constructor
  · rw [same.current]
    exact indexed.nodup
  · rw [same.currentByHash, same.current]
    exact indexed.byHash
  · rw [same.current, same.currentByAddressAndNonce]
    exact indexed.bySender
  · rw [same.currentByAddressAndNonce]
    exact indexed.senders

theorem UInt32_sub_ofNat {total part : Nat} (le : part ≤ total) :
    UInt32.ofNat total - UInt32.ofNat part = UInt32.ofNat (total - part) := by
  have split : UInt32.ofNat total =
      UInt32.ofNat (total - part) + UInt32.ofNat part := by
    rw [← UInt32.ofNat_add, Nat.sub_add_cancel le]
  rw [split, UInt32.add_sub_cancel]

namespace Filed

theorem sender_of_mem (filed : Filed queue) (sender : Address)
    (member : transaction ∈ (queue.future.get sender).transactions) :
    transaction.sender = sender :=
  (filed.senders sender _ (BySender.lookup_of_mem member)).2 transaction member

theorem waits_of_mem (filed : Filed queue) (sender : Address)
    (member : transaction ∈ (queue.future.get sender).transactions) :
    queue.Waits transaction := by
  unfold Waits
  rw [filed.sender_of_mem sender member]
  exact member

theorem same (filed : Filed queue) (same : queue'.future = queue.future)
    (size : queue'.futureSize = queue.futureSize) : Filed queue' := by
  constructor
  · rw [same]
    exact filed.senders
  · rw [same, size]
    exact filed.size

/-- One sender's transactions are replaced by a part of them. -/
theorem put (filed : Filed queue) {sender : Address} {rest : NonceMap}
    {gone : Nat} (sub : ∀ other ∈ rest.transactions,
      other ∈ (queue.future.get sender).transactions)
    (length : rest.transactions.length + gone =
      (queue.future.get sender).transactions.length)
    (future : queue'.future = queue.future.put sender rest)
    (size : queue'.futureSize = queue.futureSize - UInt32.ofNat gone) :
    Filed queue' ∧ ∀ other, queue'.Waits other ↔
      (other.sender ≠ sender ∧ queue.Waits other) ∨
        other ∈ rest.transactions := by
  refine ⟨⟨?_, ?_⟩, ?_⟩
  · intro key nonces found
    rw [future] at found
    by_cases same : key = sender
    · subst same
      obtain ⟨rfl, filled⟩ := BySender.lookup_put found
      exact ⟨filled, fun other member => filed.sender_of_mem _ (sub other member)⟩
    · rw [BySender.lookup_put_ne same] at found
      exact filed.senders key nonces found
  · have counted := BySender.count_put queue.future sender rest
    have total : queue.future.count =
        (queue.future.put sender rest).count + gone := by omega
    rw [size, filed.size, future, UInt32_sub_ofNat (by omega), total,
      Nat.add_sub_cancel]
  · intro other
    unfold Waits
    rw [future]
    by_cases same : other.sender = sender
    · rw [same, BySender.get_put]
      exact ⟨Or.inr, fun cases_ => cases_.elim
        (fun impossible => absurd rfl impossible.1) id⟩
    · rw [BySender.get_put_ne same]
      constructor
      · intro member
        exact .inl ⟨same, member⟩
      · intro cases_
        rcases cases_ with ⟨-, member⟩ | member
        · exact member
        · exact absurd (filed.sender_of_mem _ (sub other member)) same

/-- As long as there are more than the limit, an end can be dropped. -/
theorem dropFutureEnd (filed : Filed queue) (layout : Layout)
    (exceeds : queue.futureLimit < queue.futureSize) :
    ∃ queue', queue.dropFutureEnd layout = some queue' ∧ Filed queue' ∧
      SameCurrent queue queue' ∧
      (∀ other, queue'.Waits other → queue.Waits other) ∧
      queue'.futureSize.toNat + 1 = queue.futureSize.toNat := by
  have positive : 0 < queue.futureSize.toNat := by
    have less := UInt32.lt_iff_toNat_lt.mp exceeds
    omega
  have some_ : queue.future.entries ≠ [] := by
    intro none
    have size := filed.size
    rw [BySender.count, none] at size
    rw [size] at positive
    exact absurd positive (by decide)
  obtain ⟨nonces, found⟩ := Option.isSome_iff_exists.mp
    (AList.lookup_isSome.mpr (layout.first_mem queue.future some_))
  have filled := (filed.senders _ nonces found).1
  cases ending : nonces.transactions.getLast? with
  | none =>
      rw [List.getLast?_eq_none_iff] at ending
      simp [NonceMap.isEmpty, ending] at filled
  | some last =>
      have member := List.mem_of_getLast? ending
      have get := BySender.get_of_lookup found
      let shrunk : TransactionQueue := { queue with
        future := queue.future.put (layout.first queue.future)
          (nonces.erase last.nonce)
        futureSize := queue.futureSize - 1 }
      have dropped : queue.dropFutureEnd layout = some shrunk := by
        unfold TransactionQueue.dropFutureEnd
        simp [found, ending, shrunk]
      have sub : ∀ other ∈ (nonces.erase last.nonce).transactions,
          other ∈ (queue.future.get
            (layout.first queue.future)).transactions := by
        rw [get]
        exact fun other member => (NonceMap.mem_erase.mp member).1
      have length : (nonces.erase last.nonce).transactions.length + 1 =
          (queue.future.get
            (layout.first queue.future)).transactions.length := by
        rw [get]
        exact NonceMap.length_erase member
      obtain ⟨filedNew, waits⟩ := filed.put sub length
        (show shrunk.future = _ from rfl) rfl
      refine ⟨shrunk, dropped, filedNew, ⟨rfl, rfl, rfl, rfl, rfl, rfl, rfl⟩,
        ?_, ?_⟩
      · intro other waiting
        rcases (waits other).mp waiting with both | member
        · exact both.2
        · exact filed.waits_of_mem _ (sub other member)
      · show (queue.futureSize - 1).toNat + 1 = _
        have one : (1 : UInt32) ≤ queue.futureSize :=
          UInt32.le_iff_toNat_le.mpr positive
        rw [UInt32.toNat_sub_of_le _ _ one]
        show queue.futureSize.toNat - 1 + 1 = _
        omega

/-- The loop ends below the limit. -/
theorem trimFuture (filed : Filed queue) (layout : Layout) (fuel : Nat)
    (enough : queue.futureSize.toNat ≤ fuel) :
    ∃ queue', queue.trimFuture layout fuel = some queue' ∧ Filed queue' ∧
      SameCurrent queue queue' ∧
      (∀ other, queue'.Waits other → queue.Waits other) ∧
      (queue.futureSize ≤ queue.futureLimit → queue' = queue) := by
  induction fuel generalizing queue with
  | zero =>
      refine ⟨queue, ?_, filed, ⟨rfl, rfl, rfl, rfl, rfl, rfl, rfl⟩,
        fun _ => id, fun _ => rfl⟩
      refine if_neg ?_
      intro exceeds
      have less := UInt32.lt_iff_toNat_lt.mp exceeds
      omega
  | succ fuel induction =>
      unfold TransactionQueue.trimFuture
      split
      · rename_i exceeds
        obtain ⟨middle, first, filedMiddle, same, waits, less⟩ :=
          filed.dropFutureEnd layout exceeds
        obtain ⟨last, rest, filedLast, sameLast, waitsLast, -⟩ :=
          induction filedMiddle (by omega)
        refine ⟨last, ?_, filedLast, same.trans sameLast, ?_, ?_⟩
        · rw [first]
          exact rest
        · intro other waiting
          exact waits other (waitsLast other waiting)
        · intro within
          exact absurd exceeds (UInt32.not_lt.mpr within)
      · exact ⟨queue, rfl, filed, ⟨rfl, rfl, rfl, rfl, rfl, rfl, rfl⟩,
          fun _ => id, fun _ => rfl⟩

end Filed

/-! ## Moving between the two -/

/-- A transaction that the queue holds. -/
def Holds (queue : TransactionQueue) (transaction : Transaction) : Prop :=
  transaction ∈ queue.current ∨ queue.Waits transaction

/-- Both parts are in order and no sender and nonce is in both. -/
structure Consistent (queue : TransactionQueue) : Prop where
  indexed : Indexed queue
  filed : Filed queue
  apart : ∀ transaction ∈ queue.current, ∀ other, queue.Waits other →
    transaction.sender = other.sender → transaction.nonce ≠ other.nonce

/-- Among the held transactions a hash stands for one. -/
def HashesDistinct (queue : TransactionQueue) : Prop :=
  ∀ first second, queue.Holds first → queue.Holds second →
    first.hash = second.hash → first = second

theorem HashesDistinct.mono (distinct : queue.HashesDistinct)
    (fewer : ∀ other, queue'.Holds other → queue.Holds other) :
    queue'.HashesDistinct := by
  intro first second holdsFirst holdsSecond
  exact distinct first second (fewer first holdsFirst)
    (fewer second holdsSecond)

/-- What stays as it is when transactions move. -/
structure SameLimits (queue queue' : TransactionQueue) : Prop where
  limit : queue'.limit = queue.limit
  futureLimit : queue'.futureLimit = queue.futureLimit
  known : queue'.known = queue.known
  dropped : queue'.dropped = queue.dropped

theorem SameLimits.trans {queue'' : TransactionQueue}
    (first : SameLimits queue queue') (second : SameLimits queue' queue'') :
    SameLimits queue queue'' :=
  ⟨second.limit.trans first.limit,
    second.futureLimit.trans first.futureLimit,
    second.known.trans first.known,
    second.dropped.trans first.dropped⟩

/-- The future transactions that a transaction lets in. -/
def nextChain (queue : TransactionQueue) (transaction : Transaction) :
    List Transaction :=
  (queue.future.get transaction.sender).chain (transaction.nonce + 1)

/-- No more future transactions than the limit are left after the
promotion. -/
def WithinLimit (queue : TransactionQueue) (transaction : Transaction) :
    Prop :=
  queue.futureSize - UInt32.ofNat (queue.nextChain transaction).length ≤
    queue.futureLimit

/-- What a promotion after a transaction does. -/
structure Promotes (layout : Layout) (queue : TransactionQueue)
    (transaction : Transaction) (queue' : TransactionQueue) : Prop where
  limits : SameLimits queue queue'
  current : ∀ other, other ∈ queue'.current ↔
    other ∈ queue.current ∨ other ∈ queue.nextChain transaction
  holds : ∀ other, queue'.Holds other → queue.Holds other
  within : queue.WithinLimit transaction →
    ∀ other, queue.Holds other → queue'.Holds other
  ranked : FitsAll layout queue (queue.nextChain transaction) →
    Ranked queue.current → Ranked queue'.current

namespace Filed

theorem nextChain_sublist (queue : TransactionQueue)
    (transaction : Transaction) :
    (queue.nextChain transaction).Sublist
      (queue.future.get transaction.sender).transactions :=
  NonceMap.chain_sublist

theorem nextChain_waits (filed : Filed queue) {entered : Transaction}
    (member : entered ∈ queue.nextChain transaction) :
    queue.Waits entered ∧ entered.sender = transaction.sender := by
  have listed := (nextChain_sublist queue transaction).subset member
  exact ⟨filed.waits_of_mem _ listed, filed.sender_of_mem _ listed⟩

/-- The future part once the chain is taken out. -/
theorem takeChain (filed : Filed queue)
    (future : queue'.future = queue.future.put transaction.sender
      ((queue.future.get transaction.sender).filter fun other =>
        other ∉ queue.nextChain transaction))
    (size : queue'.futureSize = queue.futureSize -
      UInt32.ofNat (queue.nextChain transaction).length) :
    Filed queue' ∧ ∀ other, queue'.Waits other ↔
      queue.Waits other ∧ other ∉ queue.nextChain transaction := by
  let nonces := queue.future.get transaction.sender
  have sublist := nextChain_sublist queue transaction
  have memRest : ∀ other, other ∈ (nonces.filter fun other =>
        other ∉ queue.nextChain transaction).transactions ↔
      other ∈ nonces.transactions ∧ other ∉ queue.nextChain transaction := by
    intro other
    rw [NonceMap.mem_filter, decide_eq_true_eq]
  have length := NonceMap.length_filter_not
    (fun other member => sublist.subset member)
    (nonces.nodup.sublist sublist)
  obtain ⟨filedNew, waits⟩ := filed.put
    (fun other member => ((memRest other).mp member).1) length future size
  refine ⟨filedNew, ?_⟩
  intro other
  rw [waits, memRest]
  constructor
  · intro cases_
    rcases cases_ with ⟨sender, waiting⟩ | ⟨member, outside⟩
    · refine ⟨waiting, ?_⟩
      intro inside
      exact sender (filed.nextChain_waits inside).2
    · exact ⟨filed.waits_of_mem _ member, outside⟩
  · intro both
    obtain ⟨waiting, outside⟩ := both
    by_cases sender : other.sender = transaction.sender
    · refine .inr ⟨?_, outside⟩
      unfold Waits at waiting
      rwa [sender] at waiting
    · exact .inl ⟨sender, waiting⟩

end Filed

namespace Consistent

/-- The chain can be entered: nothing in it clashes. -/
theorem enterChain (consistent : Consistent queue)
    (distinct : queue.HashesDistinct) (layout : Layout)
    (transaction : Transaction) :
    ∃ queue', (queue.nextChain transaction).foldlM
        (TransactionQueue.enter layout) queue = some queue' ∧
      Indexed queue' ∧ SameRest queue queue' ∧
      (∀ other, other ∈ queue'.current ↔
        other ∈ queue.current ∨ other ∈ queue.nextChain transaction) ∧
      (FitsAll layout queue (queue.nextChain transaction) →
        Ranked queue.current → Ranked queue'.current) := by
  have waiting : ∀ entered ∈ queue.nextChain transaction,
      queue.Waits entered :=
    fun entered member => (consistent.filed.nextChain_waits member).1
  refine consistent.indexed.enterAll layout _ ?_ ?_ ?_
  · intro other member later laterMember hash
    have equal := distinct other later (.inl member)
      (.inr (waiting later laterMember)) hash
    rw [equal] at member
    exact consistent.apart later member later (waiting later laterMember) rfl
      rfl
  · intro other member later laterMember
    exact consistent.apart other member later (waiting later laterMember)
  · have ordered := (NonceMap.ordered _).sublist
      (Filed.nextChain_sublist queue transaction)
    refine List.Pairwise.imp_of_mem ?_ ordered
    intro first second firstMember secondMember lower
    have different := BitVec.ne_of_lt lower
    refine ⟨?_, different⟩
    intro hash
    exact different (congrArg Transaction.nonce (distinct first second
      (.inr (waiting first firstMember))
      (.inr (waiting second secondMember)) hash))

/-- Promotion enters the chain and takes it out of the future. -/
theorem promote_eq (queue : TransactionQueue) (layout : Layout)
    (transaction : Transaction) :
    (queue.nextChain transaction = [] ∧
      queue.promote layout transaction = some queue) ∨
    queue.promote layout transaction =
      ((queue.nextChain transaction).foldlM (TransactionQueue.enter layout)
        queue).map fun middle => { middle with
          future := middle.future.put transaction.sender
            ((queue.future.get transaction.sender).filter fun other =>
              other ∉ queue.nextChain transaction)
          futureSize := middle.futureSize -
            UInt32.ofNat (queue.nextChain transaction).length } := by
  unfold TransactionQueue.promote
  cases found : queue.future.lookup transaction.sender with
  | none =>
      refine .inl ⟨?_, rfl⟩
      rw [nextChain, BySender.get, found]
      rfl
  | some nonces =>
      have get := BySender.get_of_lookup found
      have chain : nonces.chain (transaction.nonce + 1) =
          queue.nextChain transaction := by
        rw [nextChain, get]
      simp only [chain, get]
      split
      · rename_i nothing
        exact .inl ⟨List.isEmpty_iff.mp nothing, rfl⟩
      · exact .inr (Option.map_eq_bind).symm

theorem promote (consistent : Consistent queue)
    (distinct : queue.HashesDistinct) (layout : Layout)
    (transaction : Transaction) :
    ∃ queue', queue.promote layout transaction = some queue' ∧
      Consistent queue' ∧ Promotes layout queue transaction queue' ∧
      (∀ other, queue.Holds other → queue'.Holds other) ∧
      queue'.futureSize = queue.futureSize -
        UInt32.ofNat (queue.nextChain transaction).length := by
  rcases promote_eq queue layout transaction with
    ⟨nothing, unchanged⟩ | promoted
  · refine ⟨queue, unchanged, consistent, ⟨⟨rfl, rfl, rfl, rfl⟩, ?_,
      fun _ => id, fun _ _ => id, fun _ => id⟩, fun _ => id, ?_⟩
    · simp [nothing]
    · rw [nothing]
      exact (UInt32.sub_zero _).symm
  · obtain ⟨middle, entered, indexed, same, members, ranked⟩ :=
      consistent.enterChain distinct layout transaction
    rw [entered, Option.map_some] at promoted
    generalize moved : TransactionQueue.mk _ _ _ _ _ _ _ _ _ = queue'
      at promoted
    have current : queue'.current = middle.current := by rw [← moved]
    have size : queue'.futureSize = queue.futureSize -
        UInt32.ofNat (queue.nextChain transaction).length := by
      rw [← moved, ← same.futureSize]
    obtain ⟨filed, waits⟩ := @Filed.takeChain queue queue' transaction
      consistent.filed (by rw [← moved, ← same.future]) size
    have keeps : ∀ other, queue'.Holds other ↔ queue.Holds other := by
      intro other
      unfold Holds
      rw [current, members, waits]
      by_cases inside : other ∈ queue.nextChain transaction
      · have waiting := (consistent.filed.nextChain_waits inside).1
        tauto
      · tauto
    refine ⟨queue', promoted, ⟨?_, filed, ?_⟩, ⟨?_, ?_, ?_, ?_, ?_⟩, ?_,
      size⟩
    · rw [← moved]
      exact indexed.same ⟨rfl, rfl, rfl, rfl, rfl, rfl, rfl⟩
    · intro first firstMember second waitingSecond sender nonce
      obtain ⟨waiting, outside⟩ := (waits second).mp waitingSecond
      rw [current, members] at firstMember
      rcases firstMember with old | inside
      · exact consistent.apart first old second waiting sender nonce
      · have firstWaiting := (consistent.filed.nextChain_waits inside).1
        unfold Waits at firstWaiting waiting
        rw [sender] at firstWaiting
        rw [NonceMap.eq_of_nonce firstWaiting waiting nonce] at inside
        exact outside inside
    · rw [← moved]
      exact ⟨same.limit, same.futureLimit, same.known, same.dropped⟩
    · rwa [current]
    · exact fun other => (keeps other).mp
    · exact fun _ other => (keeps other).mpr
    · rwa [current]
    · exact fun other => (keeps other).mpr

theorem same (consistent : Consistent queue) (filed : Filed queue')
    (same : SameCurrent queue queue')
    (fewer : ∀ other, queue'.Waits other → queue.Waits other) :
    Consistent queue' := by
  refine ⟨consistent.indexed.same same, filed, ?_⟩
  intro transaction member other waiting
  rw [same.current] at member
  exact consistent.apart transaction member other (fewer other waiting)

theorem makeCurrent (consistent : Consistent queue)
    (distinct : queue.HashesDistinct) (layout : Layout)
    (transaction : Transaction) :
    ∃ queue', queue.makeCurrent layout transaction = some queue' ∧
      Consistent queue' ∧ Promotes layout queue transaction queue' := by
  obtain ⟨middle, promoted, consistentMiddle, promotes, keeps, size⟩ :=
    consistent.promote distinct layout transaction
  obtain ⟨last, trimmed, filedLast, sameLast, waits, within⟩ :=
    consistentMiddle.filed.trimFuture layout _ (Nat.le_refl _)
  refine ⟨last, ?_, consistentMiddle.same filedLast sameLast waits,
    ⟨promotes.limits.trans ⟨sameLast.limit, sameLast.futureLimit,
      sameLast.known, sameLast.dropped⟩, ?_, ?_, ?_, ?_⟩⟩
  · rw [TransactionQueue.makeCurrent, promoted]
    exact trimmed
  · rw [sameLast.current]
    exact promotes.current
  · intro other held
    refine promotes.holds other (held.imp ?_ (waits other))
    rw [sameLast.current]
    exact id
  · intro fits
    unfold WithinLimit at fits
    rw [← size, ← promotes.limits.futureLimit] at fits
    rw [within fits]
    exact keeps
  · rw [sameLast.current]
    exact promotes.ranked

end Consistent

end TransactionQueue

end Aecmio
