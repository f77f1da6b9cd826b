import Aecmio.Queue.BlockQueue

/-!
# The ready set of the block queue

The ready set holds the hashes of the blocks in the three queues, each of
which is in one place.  A report on a block that is no longer in
`m_verifying` but was imported again breaks this, and so does a purge that
removes a block in front of one that stays: `removeIf` then returns the wrong
blocks.
-/

namespace Aecmio

namespace BlockQueue

/-! ## Removal -/

/-- No block that stays stands behind one that goes. -/
def Trailing {Block : Type} (pred : Block → Bool) (queue : List Block) :
    Prop :=
  queue.Pairwise fun first second => pred first → pred second

instance {Block : Type} (pred : Block → Bool) (queue : List Block) :
    Decidable (Trailing pred queue) :=
  inferInstanceAs (Decidable (queue.Pairwise fun first second =>
    pred first → pred second))

theorem Trailing.filter_append {Block : Type} {pred : Block → Bool}
    {queue : List Block} (trailing : Trailing pred queue) :
    queue = (queue.filter fun block => !pred block) ++ queue.filter pred := by
  induction queue with
  | nil => rfl
  | cons first rest induction =>
      obtain ⟨behind, trailingRest⟩ := List.pairwise_cons.mp trailing
      cases test : pred first with
      | false =>
          rw [List.filter_cons_of_pos (by simp [test]),
            List.filter_cons_of_neg (by simp [test]), List.cons_append,
            ← induction trailingRest]
      | true =>
          have none : (rest.filter fun block => !pred block) = [] := by
            rw [List.filter_eq_nil_iff]
            intro block member
            simp [behind block member test]
          have all : rest.filter pred = rest := by
            rw [List.filter_eq_self]
            intro block member
            exact behind block member test
          rw [List.filter_cons_of_neg (by simp [test]), none,
            List.filter_cons_of_pos test, all]
          rfl

/-- What is returned is what was removed, if that was the end of the queue. -/
theorem removeIf_of_trailing {Block : Type} {moved : Block → Block}
    {pred : Block → Bool} {queue : List Block}
    (trailing : Trailing pred queue) :
    removeIf moved pred queue =
      (queue.filter fun block => !pred block, queue.filter pred) := by
  have parts := trailing.filter_append
  unfold removeIf
  refine Prod.ext rfl ?_
  show (queue.drop _).map _ = _
  have dropped : queue.drop
      (queue.filter fun block => !pred block).length = queue.filter pred := by
    conv_lhs =>
      rw [parts]
      rw [List.filter_append]
    simp [List.filter_filter]
  rw [dropped]
  refine (List.map_congr_left ?_).trans (List.map_id _)
  intro block member
  exact if_pos (List.mem_filter.mp member).2

/-- Membership in a part of a list whose keys are distinct. -/
theorem mem_map_filter {Block : Type} {key : Block → H256}
    {pred : Block → Bool} {queue : List Block} (nodup : (queue.map key).Nodup)
    {hash : H256} :
    hash ∈ (queue.filter fun block => !pred block).map key ↔
      hash ∈ queue.map key ∧ hash ∉ (queue.filter pred).map key := by
  simp only [List.mem_map, List.mem_filter, Bool.not_eq_true']
  constructor
  · intro found
    obtain ⟨block, ⟨member, stays⟩, rfl⟩ := found
    refine ⟨⟨block, member, rfl⟩, ?_⟩
    intro removed
    obtain ⟨other, ⟨otherMember, goes⟩, same⟩ := removed
    have equal := List.inj_on_of_nodup_map nodup otherMember member same
    rw [equal, stays] at goes
    cases goes
  · intro both
    obtain ⟨⟨block, member, rfl⟩, stays⟩ := both
    refine ⟨block, ⟨member, ?_⟩, rfl⟩
    by_contra goes
    exact stays ⟨block, ⟨member, Bool.eq_true_of_not_eq_false goes⟩, rfl⟩

/-- The same for one of several lists. -/
theorem mem_append_filter {Block : Type} {key : Block → H256}
    {pred : Block → Bool} {queue : List Block} {before after : List H256}
    (nodup : (before ++ queue.map key ++ after).Nodup) (hash : H256) :
    hash ∈ before ++ (queue.filter fun block => !pred block).map key ++
        after ↔
      hash ∈ before ++ queue.map key ++ after ∧
        hash ∉ (queue.filter pred).map key := by
  rw [List.append_assoc, List.nodup_append, List.nodup_append] at nodup
  obtain ⟨-, ⟨nodupQueue, -, apartAfter⟩, apartBefore⟩ := nodup
  simp only [List.mem_append]
  rw [mem_map_filter nodupQueue]
  constructor
  · intro cases_
    rcases cases_ with (first | ⟨member, stays⟩) | last
    · refine ⟨.inl (.inl first), fun goes => ?_⟩
      exact apartBefore hash first hash (List.mem_append_left _
        ((List.filter_sublist.map _).subset goes)) rfl
    · exact ⟨.inl (.inr member), stays⟩
    · refine ⟨.inr last, fun goes => ?_⟩
      exact apartAfter hash ((List.filter_sublist.map _).subset goes) hash
        last rfl
  · intro both
    obtain ⟨(first | member) | last, stays⟩ := both
    · exact .inl (.inl first)
    · exact .inl (.inr ⟨member, stays⟩)
    · exact .inr last

/-! ## The invariant -/

/-- The hashes of the blocks in the three queues. -/
def readyHashes (queue : BlockQueue) : List H256 :=
  queue.verified.map (fun block => block.info.hash) ++
    queue.verifying.map VerifiedBlock.slot ++
    queue.unverified.map fun block => block.hash

/-- The hashes of the blocks whose parents are unknown. -/
def unknownHashes (queue : BlockQueue) : List H256 :=
  queue.unknown.map fun entry => entry.2.1

/-- The bytes of a block have the header that the queue read. -/
def Carries (hash parentHash : H256) (blockData : BlockData) : Prop :=
  ∃ info, blockData = some info ∧ info.hash = hash ∧
    info.parentHash = parentHash

structure Coherent (queue : BlockQueue) : Prop where
  nodup : queue.readyHashes.Nodup
  ready : ∀ hash, hash ∈ queue.readySet ↔ hash ∈ queue.readyHashes
  unknownNodup : queue.unknownHashes.Nodup
  unknown : ∀ hash, hash ∈ queue.unknownSet ↔ hash ∈ queue.unknownHashes
  apart : ∀ hash ∈ queue.readyHashes, hash ∉ queue.unknownHashes
  carries : ∀ block, block ∈ queue.unverified ∨ block ∈ queue.working →
    Carries block.hash block.parentHash block.blockData
  unknownCarries : ∀ entry ∈ queue.unknown,
    Carries entry.2.1 entry.1 entry.2.2

variable {queue queue' : BlockQueue}

theorem length_readyHashes (queue : BlockQueue) :
    queue.readyHashes.length = queue.knownCount := by
  simp [readyHashes, knownCount, Nat.add_assoc]

theorem Coherent.invariants (coherent : Coherent queue) :
    queue.invariants := by
  have equal : queue.readySet = queue.readyHashes.toFinset := by
    ext hash
    rw [coherent.ready, List.mem_toFinset]
  rw [BlockQueue.invariants, decide_eq_true_eq, equal,
    List.toFinset_card_of_nodup coherent.nodup, length_readyHashes]

/-! ## Marking blocks as bad -/

/-- The hashes of the unknown blocks that are not kept. -/
def removedBy (keep : H256 × H256 × BlockData → Bool) (queue : BlockQueue) :
    List H256 :=
  (queue.unknown.filter fun entry => !keep entry).map fun entry => entry.2.1

/-- Some hashes are marked as bad, and unknown blocks with them. -/
structure Marks (marked : List H256) (keep : H256 × H256 × BlockData → Bool)
    (queue queue' : BlockQueue) : Prop where
  rest : queue' = { queue with
    unknown := queue'.unknown
    unknownSet := queue'.unknownSet
    knownBad := queue'.knownBad
    readySet := queue'.readySet }
  unknown : queue'.unknown = queue.unknown.filter keep
  unknownSet : ∀ hash, hash ∈ queue'.unknownSet ↔
    hash ∈ queue.unknownSet ∧ hash ∉ removedBy keep queue
  knownBad : ∀ hash, hash ∈ queue'.knownBad ↔
    hash ∈ queue.knownBad ∨ hash ∈ marked ∨ hash ∈ removedBy keep queue
  readySet : ∀ hash, hash ∈ queue'.readySet ↔
    hash ∈ queue.readySet ∧ hash ∉ marked

/-- The unknown blocks that go with some hashes: all that hang on them, and
no others. -/
structure Hangs (roots : List H256) (keep : H256 × H256 × BlockData → Bool)
    (queue : BlockQueue) : Prop where
  sound : ∀ bad : H256 → Prop, (∀ hash ∈ roots, bad hash) →
    (∀ entry ∈ queue.unknown, bad entry.1 → bad entry.2.1) →
    ∀ hash ∈ removedBy keep queue, bad hash
  complete : ∀ entry ∈ queue.unknown, keep entry →
    entry.1 ∉ roots ∧ entry.1 ∉ removedBy keep queue

namespace Marks

variable {marked marked' : List H256}
  {keep keep' : H256 × H256 × BlockData → Bool}

theorem refl (queue : BlockQueue) : Marks [] (fun _ => true) queue queue := by
  refine ⟨rfl, (List.filter_eq_self.mpr fun _ _ => rfl).symm, ?_, ?_, ?_⟩
  · simp [removedBy]
  · simp [removedBy]
  · simp

theorem verified (marks : Marks marked keep queue queue') :
    queue'.verified = queue.verified := by rw [marks.rest]

theorem verifying (marks : Marks marked keep queue queue') :
    queue'.verifying = queue.verifying := by rw [marks.rest]

theorem unverified (marks : Marks marked keep queue queue') :
    queue'.unverified = queue.unverified := by rw [marks.rest]

theorem working (marks : Marks marked keep queue queue') :
    queue'.working = queue.working := by rw [marks.rest]

theorem removedBy_and (marks : Marks marked keep queue queue')
    {hash : H256} :
    hash ∈ removedBy (fun entry => keep entry && keep' entry) queue ↔
      hash ∈ removedBy keep queue ∨ hash ∈ removedBy keep' queue' := by
  simp only [removedBy, marks.unknown, List.mem_map, List.mem_filter,
    Bool.not_eq_true', Bool.and_eq_false_iff]
  constructor
  · intro found
    obtain ⟨entry, ⟨member, dropped⟩, rfl⟩ := found
    cases kept : keep entry with
    | false => exact .inl ⟨entry, ⟨member, kept⟩, rfl⟩
    | true =>
        rw [kept] at dropped
        exact .inr ⟨entry, ⟨⟨member, kept⟩,
          dropped.resolve_left (by decide)⟩, rfl⟩
  · intro found
    rcases found with ⟨entry, ⟨member, dropped⟩, rfl⟩ |
      ⟨entry, ⟨⟨member, -⟩, dropped⟩, rfl⟩
    · exact ⟨entry, ⟨member, .inl dropped⟩, rfl⟩
    · exact ⟨entry, ⟨member, .inr dropped⟩, rfl⟩

theorem trans {queue'' : BlockQueue} (first : Marks marked keep queue queue')
    (second : Marks marked' keep' queue' queue'') :
    Marks (marked ++ marked') (fun entry => keep entry && keep' entry) queue
      queue'' := by
  refine ⟨?_, ?_, ?_, ?_, ?_⟩
  · rw [second.rest, first.rest]
  · rw [second.unknown, first.unknown, List.filter_filter]
    simp only [Bool.and_comm]
  · intro hash
    rw [second.unknownSet, first.unknownSet, first.removedBy_and]
    tauto
  · intro hash
    rw [second.knownBad, first.knownBad, first.removedBy_and,
      List.mem_append]
    tauto
  · intro hash
    rw [second.readySet, first.readySet, List.mem_append]
    tauto

end Marks

theorem foldl_erase_mem {Entry : Type} (removed : List Entry)
    (key : Entry → H256) (set : Finset H256) (hash : H256) :
    hash ∈ removed.foldl (fun set entry => set.erase (key entry)) set ↔
      hash ∈ set ∧ hash ∉ removed.map key := by
  induction removed generalizing set with
  | nil => simp
  | cons first rest induction =>
      rw [List.foldl_cons, induction, Finset.mem_erase, List.map_cons,
        List.mem_cons]
      tauto

theorem foldl_insert_mem {Entry : Type} (added : List Entry)
    (key : Entry → H256) (set : Finset H256) (hash : H256) :
    hash ∈ added.foldl (fun set entry => insert (key entry) set) set ↔
      hash ∈ set ∨ hash ∈ added.map key := by
  induction added generalizing set with
  | nil => simp
  | cons first rest induction =>
      rw [List.foldl_cons, induction, Finset.mem_insert, List.map_cons,
        List.mem_cons]
      tauto

/-- One round takes out the blocks that hang on a hash. -/
theorem Marks.collectRound (queue : BlockQueue) (bad : H256) :
    Marks [] (fun entry => entry.1 ≠ bad) queue { queue with
      unknown := queue.unknown.eraseKey bad
      unknownSet := (queue.unknown.byKeyEqual bad).foldl
        (fun set newBad => set.erase newBad.1) queue.unknownSet
      knownBad := (queue.unknown.byKeyEqual bad).foldl
        (fun set newBad => insert newBad.1 set) queue.knownBad } := by
  have removed : (queue.unknown.byKeyEqual bad).map Prod.fst =
      removedBy (fun entry => entry.1 ≠ bad) queue := by
    simp [SizedBlockMap.byKeyEqual, removedBy]
  refine ⟨rfl, rfl, ?_, ?_, ?_⟩
  · intro hash
    rw [← removed]
    exact foldl_erase_mem _ Prod.fst _ hash
  · intro hash
    rw [← removed]
    refine (foldl_insert_mem _ Prod.fst _ hash).trans ?_
    simp
  · simp

theorem collectLoop_marks (fuel : Nat) (badQueue : List H256)
    (queue : BlockQueue)
    (enough : queue.unknown.length + badQueue.length ≤ fuel) :
    ∃ keep, Marks [] keep queue (collectLoop fuel badQueue queue) ∧
      Hangs badQueue keep queue := by
  induction fuel generalizing badQueue queue with
  | zero =>
      have nothing : badQueue = [] := by
        apply List.eq_nil_of_length_eq_zero
        omega
      refine ⟨_, .refl queue, ⟨?_, ?_⟩⟩
      · simp [removedBy]
      · simp [removedBy, nothing]
  | succ fuel induction =>
      cases badQueue with
      | nil =>
          refine ⟨_, .refl queue, ⟨?_, ?_⟩⟩
          · simp [removedBy]
          · simp [removedBy]
      | cons bad badQueue =>
          have round := Marks.collectRound queue bad
          let removed := (queue.unknown.byKeyEqual bad).map Prod.fst
          have removedEq : removed =
              removedBy (fun entry => entry.1 ≠ bad) queue := by
            simp [removed, SizedBlockMap.byKeyEqual, removedBy]
          generalize next : ({ queue with
            unknown := queue.unknown.eraseKey bad
            unknownSet := (queue.unknown.byKeyEqual bad).foldl
              (fun set newBad => set.erase newBad.1) queue.unknownSet
            knownBad := (queue.unknown.byKeyEqual bad).foldl
              (fun set newBad => insert newBad.1 set) queue.knownBad } :
            BlockQueue) = middle at round
          have lengths : middle.unknown.length + removed.length =
              queue.unknown.length := by
            rw [round.unknown, removedEq, removedBy, List.length_map]
            exact (List.length_eq_length_filter_add _).symm
          obtain ⟨keep, marks, hangs⟩ := induction (badQueue ++ removed)
            middle (by
              rw [List.length_append]
              simp only [List.length_cons] at enough
              omega)
          refine ⟨fun entry => decide (entry.1 ≠ bad) && keep entry, ?_,
            ⟨?_, ?_⟩⟩
          · rw [collectLoop]
            simp only [next]
            exact round.trans marks
          · intro badHash roots closed hash found
            rw [round.removedBy_and] at found
            have removedBad : ∀ hash ∈ removed, badHash hash := by
              intro hash member
              rw [removedEq] at member
              simp only [removedBy, List.mem_map, List.mem_filter] at member
              obtain ⟨entry, ⟨entryMember, key⟩, rfl⟩ := member
              refine closed entry entryMember ?_
              have same : entry.1 = bad := by simpa using key
              rw [same]
              exact roots bad List.mem_cons_self
            rcases found with first | later
            · rw [← removedEq] at first
              exact removedBad hash first
            · refine hangs.sound badHash ?_ ?_ hash later
              · intro root member
                rcases List.mem_append.mp member with old | new
                · exact roots root (List.mem_cons_of_mem _ old)
                · exact removedBad root new
              · intro entry member
                rw [round.unknown] at member
                exact closed entry (List.mem_filter.mp member).1
          · intro entry member kept
            rw [Bool.and_eq_true] at kept
            have inMiddle : entry ∈ middle.unknown := by
              rw [round.unknown]
              exact List.mem_filter.mpr ⟨member, kept.1⟩
            obtain ⟨notRoot, notRemoved⟩ :=
              hangs.complete entry inMiddle kept.2
            rw [List.mem_append, not_or, removedEq] at notRoot
            rw [round.removedBy_and, not_or, List.mem_cons, not_or]
            exact ⟨⟨by simpa using kept.1, notRoot.1⟩, notRoot.2,
              notRemoved⟩

theorem Hangs.trans {roots roots' marked : List H256}
    {keep keep' : H256 × H256 × BlockData → Bool}
    (marks : Marks marked keep queue queue') (first : Hangs roots keep queue)
    (second : Hangs roots' keep' queue') :
    Hangs (roots ++ roots') (fun entry => keep entry && keep' entry)
      queue := by
  constructor
  · intro bad rootsBad closed hash found
    rw [marks.removedBy_and] at found
    rcases found with early | late
    · refine first.sound bad ?_ closed hash early
      intro root member
      exact rootsBad root (List.mem_append_left _ member)
    · refine second.sound bad ?_ ?_ hash late
      · intro root member
        exact rootsBad root (List.mem_append_right _ member)
      · intro entry member
        rw [marks.unknown] at member
        exact closed entry (List.mem_filter.mp member).1
  · intro entry member kept
    rw [Bool.and_eq_true] at kept
    have later : entry ∈ queue'.unknown := by
      rw [marks.unknown]
      exact List.mem_filter.mpr ⟨member, kept.1⟩
    obtain ⟨notFirst, notEarly⟩ := first.complete entry member kept.1
    obtain ⟨notSecond, notLate⟩ := second.complete entry later kept.2
    rw [List.mem_append, not_or, marks.removedBy_and, not_or]
    exact ⟨⟨notFirst, notSecond⟩, notEarly, notLate⟩

theorem collectUnknownBad_marks (queue : BlockQueue) (bad : H256) :
    ∃ keep, Marks [] keep queue (queue.collectUnknownBad bad) ∧
      Hangs [bad] keep queue :=
  collectLoop_marks _ [bad] queue (Nat.le_refl _)

theorem markBad_marks (queue : BlockQueue) (hash : H256) :
    ∃ keep, Marks [hash] keep queue (queue.markBad hash) ∧
      Hangs [hash] keep queue := by
  obtain ⟨keep, marks, hangs⟩ := collectUnknownBad_marks { queue with
    knownBad := insert hash queue.knownBad
    readySet := queue.readySet.erase hash } hash
  refine ⟨keep, ⟨?_, marks.unknown, marks.unknownSet, ?_, ?_⟩, hangs.sound,
    hangs.complete⟩
  · exact marks.rest
  · intro other
    refine (marks.knownBad other).trans ?_
    rw [Finset.mem_insert, List.mem_singleton]
    simp only [List.not_mem_nil, false_or]
    show _ ∨ other ∈ removedBy keep queue ↔ _
    tauto
  · intro other
    refine (marks.readySet other).trans ?_
    rw [Finset.mem_erase, List.mem_singleton]
    simp only [List.not_mem_nil, not_false_eq_true, and_true]
    tauto

theorem markAll_marks (hashes : List H256) (queue : BlockQueue) :
    ∃ keep, Marks hashes keep queue (hashes.foldl markBad queue) ∧
      Hangs hashes keep queue := by
  induction hashes generalizing queue with
  | nil =>
      refine ⟨_, .refl queue, ⟨?_, ?_⟩⟩
      · simp [removedBy]
      · simp [removedBy]
  | cons hash rest induction =>
      obtain ⟨first, marksFirst, hangsFirst⟩ := markBad_marks queue hash
      obtain ⟨second, marksSecond, hangsSecond⟩ :=
        induction (queue.markBad hash)
      exact ⟨_, marksFirst.trans marksSecond,
        hangsFirst.trans marksFirst hangsSecond⟩

namespace Coherent

/-- A part of the queues goes, with its hashes and the unknown blocks that
hang on them. -/
theorem marks (coherent : Coherent queue) {middle : BlockQueue}
    {marked : List H256} {keep : H256 × H256 × BlockData → Bool}
    (marks : Marks marked keep middle queue')
    (unknown : middle.unknown = queue.unknown)
    (unknownSet : middle.unknownSet = queue.unknownSet)
    (readySet : middle.readySet = queue.readySet)
    (working : middle.working = queue.working)
    (unverified : ∀ block ∈ middle.unverified, block ∈ queue.unverified)
    (sublist : middle.readyHashes.Sublist queue.readyHashes)
    (exact_ : ∀ hash, hash ∈ middle.readyHashes ↔
      hash ∈ queue.readyHashes ∧ hash ∉ marked) : Coherent queue' := by
  have hashes : queue'.readyHashes = middle.readyHashes := by
    unfold readyHashes
    rw [marks.verified, marks.verifying, marks.unverified]
  have unknownHashes' : queue'.unknownHashes =
      (queue.unknown.filter keep).map fun entry => entry.2.1 := by
    rw [unknownHashes, marks.unknown, unknown]
  have unknownSublist : queue'.unknownHashes.Sublist queue.unknownHashes := by
    rw [unknownHashes']
    exact List.filter_sublist.map _
  have removed : removedBy keep middle = removedBy keep queue := by
    rw [removedBy, removedBy, unknown]
  refine ⟨?_, ?_, ?_, ?_, ?_, ?_, ?_⟩
  · rw [hashes]
    exact coherent.nodup.sublist sublist
  · intro hash
    rw [marks.readySet, readySet, coherent.ready, hashes, exact_]
  · exact coherent.unknownNodup.sublist unknownSublist
  · intro hash
    have split := @mem_map_filter _
      (fun entry : H256 × H256 × BlockData => entry.2.1)
      (fun entry => !keep entry) queue.unknown coherent.unknownNodup hash
    simp only [Bool.not_not] at split
    rw [marks.unknownSet, unknownSet, coherent.unknown, removed,
      unknownHashes', split]
    rfl
  · intro hash member
    rw [hashes] at member
    intro inUnknown
    exact coherent.apart hash (sublist.subset member)
      (unknownSublist.subset inUnknown)
  · intro block cases_
    rw [marks.unverified, marks.working, working] at cases_
    exact coherent.carries block (cases_.imp (unverified block) id)
  · intro entry member
    rw [marks.unknown, unknown] at member
    exact coherent.unknownCarries entry (List.mem_filter.mp member).1

theorem collectUnknownBad (coherent : Coherent queue) (bad : H256) :
    Coherent (queue.collectUnknownBad bad) := by
  obtain ⟨keep, marks, -⟩ := collectUnknownBad_marks queue bad
  exact coherent.marks marks rfl rfl rfl rfl (fun _ => id) (.refl _)
    (by simp)

/-- Only the three queues, the sets and the unknown blocks matter. -/
theorem setKnownBad (coherent : Coherent queue) (knownBad : Finset H256) :
    Coherent { queue with knownBad } :=
  ⟨coherent.nodup, coherent.ready, coherent.unknownNodup, coherent.unknown,
    coherent.apart, coherent.carries, coherent.unknownCarries⟩

/-- Blocks leave the three queues, or move from one to another. -/
theorem shrink (coherent : Coherent queue)
    (unknown : queue'.unknown = queue.unknown)
    (unknownSet : queue'.unknownSet = queue.unknownSet)
    (blocks : ∀ block, block ∈ queue'.unverified ∨ block ∈ queue'.working →
      block ∈ queue.unverified ∨ block ∈ queue.working)
    (sublist : queue'.readyHashes.Sublist queue.readyHashes)
    (ready : ∀ hash, hash ∈ queue'.readySet ↔ hash ∈ queue'.readyHashes) :
    Coherent queue' := by
  have sameHashes : queue'.unknownHashes = queue.unknownHashes := by
    rw [unknownHashes, unknownHashes, unknown]
  refine ⟨coherent.nodup.sublist sublist, ready, ?_, ?_, ?_, ?_, ?_⟩
  · rw [sameHashes]
    exact coherent.unknownNodup
  · rw [sameHashes, unknownSet]
    exact coherent.unknown
  · intro hash member
    rw [sameHashes]
    exact coherent.apart hash (sublist.subset member)
  · intro block cases_
    exact coherent.carries block (blocks block cases_)
  · rw [unknown]
    exact coherent.unknownCarries

theorem purgeVerified (coherent : Coherent queue)
    (trailing : Trailing queue.badVerified queue.verified) :
    Coherent queue.purgeVerified := by
  unfold BlockQueue.purgeVerified
  rw [removeIf_of_trailing trailing]
  obtain ⟨keep, marks, -⟩ := markAll_marks
    ((queue.verified.filter queue.badVerified).map fun block =>
      block.info.hash)
    { queue with
      verified := queue.verified.filter fun block => !queue.badVerified block }
  have nodup := coherent.nodup
  refine coherent.marks marks rfl rfl rfl rfl (fun _ => id) ?_ ?_
  · exact ((List.filter_sublist.map _).append (.refl _)).append (.refl _)
  · intro hash
    unfold readyHashes at nodup ⊢
    rw [List.append_assoc] at nodup ⊢
    rw [List.append_assoc]
    exact @mem_append_filter _ _ _ _ [] _ nodup hash

theorem purgeUnverified (coherent : Coherent queue)
    (trailing : Trailing queue.badUnverified queue.unverified) :
    Coherent queue.purgeUnverified := by
  unfold BlockQueue.purgeUnverified
  rw [removeIf_of_trailing trailing]
  obtain ⟨keep, marks, -⟩ := markAll_marks
    ((queue.unverified.filter queue.badUnverified).map fun block =>
      block.hash)
    { queue with unverified :=
        queue.unverified.filter fun block => !queue.badUnverified block }
  have nodup := coherent.nodup
  refine coherent.marks marks rfl rfl rfl rfl ?_ ?_ ?_
  · intro block member
    exact (List.mem_filter.mp member).1
  · exact (List.Sublist.refl _).append (List.filter_sublist.map _)
  · intro hash
    unfold readyHashes at nodup ⊢
    rw [← List.append_nil (_ ++ _)] at nodup ⊢
    rw [← List.append_nil (_ ++ List.map _ queue.unverified)]
    exact mem_append_filter nodup hash

theorem sublist_verifying (queue : BlockQueue)
    {verifying : List VerifiedBlock}
    (sublist : verifying.Sublist queue.verifying) :
    (readyHashes { queue with verifying }).Sublist queue.readyHashes :=
  ((List.Sublist.refl _).append (sublist.map _)).append (.refl _)

theorem purgeVerifying (coherent : Coherent queue)
    (trailing : Trailing queue.badVerifying queue.verifying) :
    Coherent queue.purgeVerifying := by
  unfold BlockQueue.purgeVerifying
  rw [removeIf_of_trailing trailing]
  obtain ⟨keep, marks, -⟩ := markAll_marks
    ((queue.verifying.filter queue.badVerifying).map VerifiedBlock.slot)
    { queue with verifying :=
        queue.verifying.filter fun block => !queue.badVerifying block }
  exact coherent.marks marks rfl rfl rfl rfl (fun _ => id)
    (sublist_verifying queue List.filter_sublist)
    (mem_append_filter coherent.nodup)

end Coherent

/-- Each of the three removals of a round takes the end of its queue. -/
structure RoundTrails (queue : BlockQueue) : Prop where
  verified : Trailing queue.badVerified queue.verified
  unverified : Trailing queue.purgeVerified.badUnverified
    queue.purgeVerified.unverified
  verifying : Trailing queue.purgeVerified.purgeUnverified.badVerifying
    queue.purgeVerified.purgeUnverified.verifying

instance (queue : BlockQueue) : Decidable queue.RoundTrails :=
  decidable_of_iff (Trailing queue.badVerified queue.verified ∧
      Trailing queue.purgeVerified.badUnverified
        queue.purgeVerified.unverified ∧
      Trailing queue.purgeVerified.purgeUnverified.badVerifying
        queue.purgeVerified.purgeUnverified.verifying)
    ⟨fun all => ⟨all.1, all.2.1, all.2.2⟩,
      fun trails => ⟨trails.verified, trails.unverified, trails.verifying⟩⟩

def LoopTrails : Nat → BlockQueue → Prop
  | 0, _ => True
  | fuel + 1, queue => queue.RoundTrails ∧
      (queue.purgeRound.knownCount < queue.knownCount →
        LoopTrails fuel queue.purgeRound)

instance LoopTrails.decidable :
    (fuel : Nat) → (queue : BlockQueue) → Decidable (LoopTrails fuel queue)
  | 0, _ => .isTrue trivial
  | fuel + 1, queue =>
      have := LoopTrails.decidable fuel queue.purgeRound
      inferInstanceAs (Decidable (_ ∧ (_ → _)))

/-- So do all removals of a purge. -/
def PurgeTrails (queue : BlockQueue) (bad : H256) : Prop :=
  LoopTrails (queue.knownCount + 1) (queue.collectUnknownBad bad)

/-- So do all purges of a `doneDrain`. -/
def DrainTrails : List (List H256 × H256) → BlockQueue → Prop
  | [], _ => True
  | entry :: rest, queue =>
      let queue := entry.1.foldl
        (fun queue placeholder => queue.take placeholder) queue
      queue.PurgeTrails entry.2 ∧ DrainTrails rest (queue.updateBad entry.2)

theorem judge_bad {block : VerifiedBlock}
    (bad : block.info.parentHash ∈ queue.knownBad) :
    queue.judge block = { queue with
      readySet := queue.readySet.erase block.info.hash
      knownBad := insert block.info.hash queue.knownBad
      history := queue.history.advance block.info.hash .succeeded
        (.judged true) } := by
  simp [judge, bad]

theorem judge_good {block : VerifiedBlock}
    (good : block.info.parentHash ∉ queue.knownBad) :
    queue.judge block = { queue with
      verified := queue.verified ++ [block]
      history := {
        queue.history.advance block.info.hash .succeeded (.judged false) with
        appended := queue.history.appended ++ [block] } } := by
  simp [judge, good, History.advance]

namespace Coherent

theorem purgeRound (coherent : Coherent queue)
    (trails : queue.RoundTrails) : Coherent queue.purgeRound :=
  ((coherent.purgeVerified trails.verified).purgeUnverified
    trails.unverified).purgeVerifying trails.verifying

theorem purgeLoop (coherent : Coherent queue) (fuel : Nat)
    (trails : LoopTrails fuel queue) :
    Coherent (BlockQueue.purgeLoop fuel queue) := by
  induction fuel generalizing queue with
  | zero => exact coherent
  | succ fuel induction =>
      obtain ⟨round, later⟩ := trails
      have coherentRound := coherent.purgeRound round
      unfold BlockQueue.purgeLoop
      split
      · rename_i more
        exact induction coherentRound (later more)
      · exact coherentRound

theorem updateBad (coherent : Coherent queue) {bad : H256}
    (trails : queue.PurgeTrails bad) : Coherent (queue.updateBad bad) :=
  (coherent.collectUnknownBad bad).purgeLoop _ trails

/-! ## Verifiers -/

theorem take (coherent : Coherent queue) (placeholder : H256) :
    Coherent (queue.take placeholder) := by
  cases waiting : queue.unverified with
  | nil =>
      have same : queue.take placeholder = queue := by
        rw [BlockQueue.take, waiting]
      rwa [same]
  | cons work rest =>
      have hashes : (queue.take placeholder).readyHashes =
          queue.readyHashes := by
        simp [BlockQueue.take, waiting, readyHashes, VerifiedBlock.slot]
      refine coherent.shrink ?_ ?_ ?_ ?_ ?_
      · simp [BlockQueue.take, waiting]
      · simp [BlockQueue.take, waiting]
      · intro block cases_
        rw [waiting]
        simp only [BlockQueue.take, waiting, List.mem_append,
          List.mem_singleton] at cases_
        rcases cases_ with later | working | first
        · exact .inl (List.mem_cons_of_mem _ later)
        · exact .inr working
        · exact .inl (by rw [first]; exact List.mem_cons_self)
      · rw [hashes]
      · rw [hashes]
        simp only [BlockQueue.take, waiting]
        exact coherent.ready

theorem takeAll (coherent : Coherent queue) (placeholders : List H256) :
    Coherent (placeholders.foldl
      (fun queue placeholder => queue.take placeholder) queue) := by
  induction placeholders generalizing queue with
  | nil => exact coherent
  | cons placeholder rest induction =>
      exact induction (coherent.take placeholder)

/-- A finished block leaves the head of `m_verifying`. -/
theorem judge {block : VerifiedBlock} {rest : List VerifiedBlock}
    (coherent : Coherent { queue with verifying := block :: rest })
    (finished : block.blockData.isSome) :
    Coherent { queue.judge block with verifying := rest } := by
  have slot : block.slot = block.info.hash := if_pos finished
  have nodup := coherent.nodup
  have ready := coherent.ready
  have apart := coherent.apart
  simp only [readyHashes, List.map_cons, slot] at nodup ready apart
  by_cases bad : block.info.parentHash ∈ queue.knownBad
  · have fewer : (queue.verified.map (fun block => block.info.hash) ++
        rest.map VerifiedBlock.slot ++
        queue.unverified.map fun block => block.hash).Sublist
        (queue.verified.map (fun block => block.info.hash) ++
          block.info.hash :: rest.map VerifiedBlock.slot ++
          queue.unverified.map fun block => block.hash) :=
      ((List.Sublist.refl _).append (List.sublist_cons_self _ _)).append
        (.refl _)
    have away : block.info.hash ∉
        queue.verified.map (fun block => block.info.hash) ++
        rest.map VerifiedBlock.slot ++
        queue.unverified.map fun block => block.hash := by
      rw [List.append_assoc, List.cons_append, List.nodup_middle] at nodup
      rw [List.append_assoc]
      exact (List.nodup_cons.mp nodup).1
    rw [judge_bad bad]
    refine coherent.shrink rfl rfl (fun _ => id) ?_ ?_
    · simpa only [readyHashes, List.map_cons, slot] using fewer
    intro hash
    show hash ∈ queue.readySet.erase block.info.hash ↔ hash ∈ _ ++ _ ++ _
    rw [Finset.mem_erase, ready]
    by_cases same : hash = block.info.hash
    · rw [same]
      exact ⟨fun both => absurd rfl both.1, fun member => absurd member away⟩
    · simp only [List.mem_append, List.mem_cons, same, false_or, ne_eq,
        not_false_eq_true, true_and]
  · rw [judge_good bad]
    have same : readyHashes { queue with
          verified := queue.verified ++ [block]
          verifying := rest } =
        queue.verified.map (fun block => block.info.hash) ++
          block.info.hash :: rest.map VerifiedBlock.slot ++
          queue.unverified.map fun block => block.hash := by
      simp [readyHashes]
    refine ⟨?_, ?_, coherent.unknownNodup, coherent.unknown, ?_,
      coherent.carries, coherent.unknownCarries⟩
    · exact same ▸ nodup
    · intro hash
      exact (ready hash).trans (by rw [← same]; exact Iff.rfl)
    · intro hash member
      exact apart hash (same ▸ member)

theorem drainLoop {verifying : List VerifiedBlock}
    (coherent : Coherent { queue with verifying }) :
    Coherent (queue.drainLoop verifying) := by
  induction verifying generalizing queue with
  | nil => exact coherent
  | cons block rest induction =>
      unfold BlockQueue.drainLoop
      split
      · rename_i finished
        exact induction (coherent.judge finished)
      · exact coherent

theorem drainVerified (coherent : Coherent queue) :
    Coherent queue.drainVerified :=
  coherent.drainLoop

/-- Only the hashes of `m_verifying` matter. -/
theorem setVerifying (coherent : Coherent queue)
    {verifying : List VerifiedBlock}
    (slots : verifying.map VerifiedBlock.slot =
      queue.verifying.map VerifiedBlock.slot) :
    Coherent { queue with verifying } := by
  have hashes : readyHashes { queue with verifying } =
      queue.readyHashes := by
    rw [readyHashes, readyHashes, slots]
  refine coherent.shrink rfl rfl (fun _ => id) ?_ ?_
  · rw [hashes]
  · rw [hashes]
    exact coherent.ready

end Coherent

/-- A report finds no finished block whose uncle hash is the hash of its
block; and if that is a failure and the hash is ready, the block stands in
`m_verifying`. -/
structure Expected (queue : BlockQueue) (work : UnverifiedBlock)
    (success : Bool) : Prop where
  uncles : ∀ block ∈ queue.verifying, block.blockData.isSome →
    block.info.sha3Uncles ≠ work.hash
  placeholder : success = false → work.hash ∈ queue.readySet →
    ∃ block ∈ queue.verifying, block.info.sha3Uncles = work.hash

theorem Expected.slot {work : UnverifiedBlock} {success : Bool}
    (expected : Expected queue work success) {block : VerifiedBlock}
    (member : block ∈ queue.verifying)
    (same : block.info.sha3Uncles = work.hash) : block.slot = work.hash := by
  unfold VerifiedBlock.slot
  split
  · rename_i finished
    exact absurd same (expected.uncles block member finished)
  · exact same

theorem map_slot_replace {hash : H256} {result : VerifiedBlock}
    {verifying : List VerifiedBlock} (same : result.slot = hash)
    (slots : ∀ block ∈ verifying, block.info.sha3Uncles = hash →
      block.slot = hash) :
    (replace hash result verifying).map VerifiedBlock.slot =
      verifying.map VerifiedBlock.slot := by
  induction verifying with
  | nil => rfl
  | cons first rest induction =>
      unfold replace
      split
      · rename_i here
        rw [List.map_cons, List.map_cons, same,
          slots first List.mem_cons_self here]
      · rw [List.map_cons, List.map_cons, induction fun block member =>
          slots block (List.mem_cons_of_mem _ member)]

theorem setVerifying_judge (queue : BlockQueue) (block : VerifiedBlock) :
    ({ queue.judge block with verifying := queue.verifying } : BlockQueue) =
      queue.judge block := by
  by_cases bad : block.info.parentHash ∈ queue.knownBad
  · rw [judge_bad bad]
  · rw [judge_good bad]

namespace Coherent

/-- The placeholder of a failed block and its hash are taken out. -/
theorem withoutFailed (coherent : Coherent queue) {work : UnverifiedBlock}
    (expected : Expected queue work false) : Coherent { queue with
      readySet := queue.readySet.erase work.hash
      knownBad := insert work.hash queue.knownBad
      verifying := queue.verifying.filter fun block =>
        !decide (block.info.sha3Uncles = work.hash) } := by
  let pred (block : VerifiedBlock) : Bool :=
    block.info.sha3Uncles = work.hash
  have stays : ∀ hash, hash ∈ readyHashes { queue with
      verifying := queue.verifying.filter fun block => !pred block } ↔
      hash ∈ queue.readyHashes ∧ hash ∉
        (queue.verifying.filter pred).map VerifiedBlock.slot :=
    mem_append_filter coherent.nodup
  refine coherent.shrink rfl rfl (fun _ => id)
    (sublist_verifying queue List.filter_sublist) ?_
  intro hash
  refine Iff.trans ?_ (stays hash).symm
  show hash ∈ queue.readySet.erase work.hash ↔ _
  rw [Finset.mem_erase, coherent.ready, and_comm]
  refine and_congr_right fun member => not_congr ?_
  constructor
  · intro same
    rw [same] at member ⊢
    obtain ⟨block, here, uncles⟩ := expected.placeholder rfl
      ((coherent.ready work.hash).mpr member)
    rw [← expected.slot here uncles]
    exact List.mem_map_of_mem
      (List.mem_filter.mpr ⟨here, decide_eq_true uncles⟩)
  · intro removed
    obtain ⟨block, selected, slot⟩ := List.mem_map.mp removed
    obtain ⟨here, uncles⟩ := List.mem_filter.mp selected
    rw [← slot]
    exact expected.slot here (of_decide_eq_true uncles)

theorem reportBad (coherent : Coherent queue) {work : UnverifiedBlock}
    (expected : Expected queue work false) :
    Coherent (queue.reportBad work) :=
  (coherent.withoutFailed expected).drainVerified

theorem reportGood (coherent : Coherent queue) {work : UnverifiedBlock}
    (expected : Expected queue work true) {info : Header}
    (hash : info.hash = work.hash) :
    Coherent (queue.reportGood work { info, blockData := some info }) := by
  have slots : ∀ block ∈ queue.verifying,
      block.info.sha3Uncles = work.hash → block.slot = work.hash :=
    fun block member => expected.slot member
  unfold BlockQueue.reportGood
  split
  · exact coherent
  · rename_i first rest verifying
    split
    · rename_i next
      have filled : Coherent { queue with
          verifying := { info, blockData := some info } :: rest } := by
        refine coherent.setVerifying ?_
        rw [verifying, List.map_cons, List.map_cons,
          slots first (by rw [verifying]; exact List.mem_cons_self) next]
        exact congrArg (· :: _) hash
      have judged := @Coherent.judge { queue with verifying := rest } _ rest
        filled rfl
      have same := setVerifying_judge { queue with verifying := rest }
        { info, blockData := some info }
      rw [same] at judged
      exact judged.drainVerified
    · exact coherent.setVerifying (map_slot_replace hash slots)

/-- What was noted and who works does not matter. -/
theorem setWorking (coherent : Coherent queue)
    {working : List UnverifiedBlock} {history : History}
    (fewer : ∀ block ∈ working, block ∈ queue.working) :
    Coherent { queue with working, history } :=
  coherent.shrink rfl rfl (fun block => Or.imp id (fewer block)) (.refl _)
    coherent.ready

theorem finish (coherent : Coherent queue) {index : Nat} {success : Bool}
    (expected : ∀ work, queue.working[index]? = some work →
      Expected queue work success) :
    Coherent (queue.finish index success) := by
  unfold BlockQueue.finish
  split
  · exact coherent
  · rename_i work found
    obtain ⟨info, data, hash, -⟩ := coherent.carries work
      (.inr (List.mem_of_getElem? found))
    have expectedHere := expected work found
    have fewer : ∀ block ∈ queue.working.eraseIdx index,
        block ∈ queue.working :=
      fun block => List.mem_of_mem_eraseIdx
    rw [data]
    cases success with
    | true =>
        refine (coherent.setWorking fewer).reportGood ?_ hash
        exact ⟨expectedHere.uncles, expectedHere.placeholder⟩
    | false =>
        refine (coherent.setWorking fewer).reportBad ?_
        exact ⟨expectedHere.uncles, expectedHere.placeholder⟩

end Coherent

/-! ## Blocks that become ready -/

/-- The blocks that wait for a parent. -/
def children (parent : H256) (queue : BlockQueue) : List UnverifiedBlock :=
  (queue.unknown.byKeyEqual parent).map fun newReady =>
    ⟨newReady.1, parent, newReady.2⟩

theorem mem_children {parent : H256} {block : UnverifiedBlock} :
    block ∈ queue.children parent ↔ block.parentHash = parent ∧
      (parent, block.hash, block.blockData) ∈ queue.unknown := by
  simp only [children, SizedBlockMap.byKeyEqual, List.mem_map,
    List.mem_filter, decide_eq_true_eq]
  constructor
  · intro found
    obtain ⟨newReady, ⟨entry, ⟨member, key⟩, rfl⟩, rfl⟩ := found
    exact ⟨rfl, by rw [← key]; exact member⟩
  · intro both
    obtain ⟨rfl, member⟩ := both
    exact ⟨_, ⟨_, ⟨member, rfl⟩, rfl⟩, rfl⟩

/-- The blocks that wait for a parent are enqueued. -/
structure Admits (parent : H256) (queue queue' : BlockQueue) : Prop where
  rest : queue' = { queue with
    unknown := queue'.unknown
    unknownSet := queue'.unknownSet
    readySet := queue'.readySet
    unverified := queue'.unverified
    history := queue'.history }
  unknown : queue'.unknown = queue.unknown.eraseKey parent
  unknownSet : ∀ hash, hash ∈ queue'.unknownSet ↔ hash ∈ queue.unknownSet ∧
    hash ∉ (queue.children parent).map fun block => block.hash
  readySet : ∀ hash, hash ∈ queue'.readySet ↔ hash ∈ queue.readySet ∨
    hash ∈ (queue.children parent).map fun block => block.hash
  unverified : queue'.unverified = queue.unverified ++ queue.children parent
  history : queue'.history = { queue.history with
    records := queue.history.records ++
      (queue.children parent).map fun block => ⟨block, .waiting⟩ }

theorem admits (parent : H256) (queue : BlockQueue) :
    Admits parent queue ((queue.unknown.byKeyEqual parent).foldl
      (fun queue newReady =>
        { queue.enqueue ⟨newReady.1, parent, newReady.2⟩ with
          unknownSet := queue.unknownSet.erase newReady.1
          readySet := insert newReady.1 queue.readySet })
      { queue with unknown := queue.unknown.eraseKey parent }) := by
  have general : ∀ (removed : List (H256 × BlockData)) (queue : BlockQueue),
      removed.foldl (fun queue newReady =>
        { queue.enqueue ⟨newReady.1, parent, newReady.2⟩ with
          unknownSet := queue.unknownSet.erase newReady.1
          readySet := insert newReady.1 queue.readySet }) queue =
      { queue with
        unknownSet := removed.foldl (fun set newReady =>
          set.erase newReady.1) queue.unknownSet
        readySet := removed.foldl (fun set newReady =>
          insert newReady.1 set) queue.readySet
        unverified := queue.unverified ++ removed.map fun newReady =>
          ⟨newReady.1, parent, newReady.2⟩
        history := { queue.history with
          records := queue.history.records ++ removed.map fun newReady =>
            ⟨⟨newReady.1, parent, newReady.2⟩, .waiting⟩ } } := by
    intro removed
    induction removed with
    | nil => simp
    | cons first rest induction =>
        intro queue
        rw [List.foldl_cons, induction]
        simp [enqueue]
  have hashes : (queue.unknown.byKeyEqual parent).map Prod.fst =
      (queue.children parent).map fun block => block.hash := by
    simp [children]
  rw [general]
  refine ⟨rfl, rfl, ?_, ?_, rfl, ?_⟩
  · intro hash
    rw [← hashes]
    exact foldl_erase_mem _ Prod.fst _ hash
  · intro hash
    rw [← hashes]
    exact foldl_insert_mem _ Prod.fst _ hash
  · simp [children]

theorem Admits.readyHashes {parent : H256}
    (admits : Admits parent queue queue') :
    queue'.readyHashes = queue.readyHashes ++
      (queue.children parent).map fun block => block.hash := by
  rw [BlockQueue.readyHashes, admits.unverified, admits.rest]
  simp [BlockQueue.readyHashes]

theorem Admits.knownBad {parent : H256}
    (admits : Admits parent queue queue') :
    queue'.knownBad = queue.knownBad := by rw [admits.rest]

theorem children_unknown {parent hash : H256}
    (member : hash ∈ (queue.children parent).map fun block => block.hash) :
    hash ∈ queue.unknownHashes := by
  obtain ⟨block, child, rfl⟩ := List.mem_map.mp member
  exact List.mem_map.mpr ⟨_, (mem_children.mp child).2, rfl⟩

namespace Coherent

theorem admits {parent : H256} (coherent : Coherent queue)
    (admits : Admits parent queue queue') : Coherent queue' := by
  let leaves (entry : H256 × H256 × BlockData) : Bool := entry.1 = parent
  have children : (queue.children parent).map (fun block => block.hash) =
      (queue.unknown.filter leaves).map fun entry => entry.2.1 := by
    simp [BlockQueue.children, SizedBlockMap.byKeyEqual, leaves]
  have unknown : queue'.unknown =
      queue.unknown.filter fun entry => !leaves entry := by
    rw [admits.unknown]
    simp [SizedBlockMap.eraseKey, leaves]
  have split : ∀ hash, hash ∈ queue'.unknownHashes ↔
      hash ∈ queue.unknownHashes ∧
        hash ∉ (queue.children parent).map fun block => block.hash := by
    intro hash
    rw [unknownHashes, unknown, children]
    exact mem_map_filter coherent.unknownNodup
  have unknownSublist : queue'.unknownHashes.Sublist queue.unknownHashes := by
    rw [unknownHashes, unknown]
    exact List.filter_sublist.map _
  have hashes := admits.readyHashes
  refine ⟨?_, ?_, ?_, ?_, ?_, ?_, ?_⟩
  · rw [hashes, List.nodup_append]
    refine ⟨coherent.nodup, ?_, ?_⟩
    · rw [children]
      exact coherent.unknownNodup.sublist (List.filter_sublist.map _)
    · intro hash ready other child same
      rw [← same] at child
      exact coherent.apart hash ready (children_unknown child)
  · intro hash
    rw [admits.readySet, coherent.ready, hashes, List.mem_append]
  · exact coherent.unknownNodup.sublist unknownSublist
  · intro hash
    rw [admits.unknownSet, coherent.unknown, split]
  · intro hash member inUnknown
    rw [split] at inUnknown
    rw [hashes, List.mem_append] at member
    rcases member with ready | child
    · exact coherent.apart hash ready inUnknown.1
    · exact inUnknown.2 child
  · intro block cases_
    have working : queue'.working = queue.working := by rw [admits.rest]
    rw [admits.unverified, working, List.mem_append] at cases_
    rcases cases_ with (old | child) | atWork
    · exact coherent.carries block (.inl old)
    · obtain ⟨rfl, member⟩ := mem_children.mp child
      exact coherent.unknownCarries _ member
    · exact coherent.carries block (.inr atWork)
  · intro entry member
    rw [unknown] at member
    exact coherent.unknownCarries entry (List.mem_filter.mp member).1

theorem readyLoop (coherent : Coherent queue) (fuel : Nat)
    (goodQueue : List H256) :
    Coherent (BlockQueue.readyLoop fuel goodQueue queue) := by
  induction fuel generalizing queue goodQueue with
  | zero => exact coherent
  | succ fuel induction =>
      cases goodQueue with
      | nil => exact coherent
      | cons parent goodQueue =>
          exact induction (coherent.admits (BlockQueue.admits parent queue)) _

theorem noteReady (coherent : Coherent queue) (good : H256) :
    Coherent (queue.noteReady good) :=
  coherent.readyLoop _ _

theorem retryLoop (coherent : Coherent queue) (fuel : Nat) :
    Coherent (BlockQueue.retryLoop fuel queue) := by
  induction fuel generalizing queue with
  | zero => exact coherent
  | succ fuel induction =>
      unfold BlockQueue.retryLoop
      split
      · exact coherent
      · rename_i parent _ _ _
        exact induction (coherent.admits (BlockQueue.admits parent queue))

theorem retryAllUnknown (coherent : Coherent queue) :
    Coherent queue.retryAllUnknown :=
  coherent.retryLoop _

/-- A new block is enqueued. -/
theorem enqueue (coherent : Coherent queue) {block : Header}
    (notReady : block.hash ∉ queue.readySet)
    (notUnknown : block.hash ∉ queue.unknownSet) {difficulty : U256} :
    Coherent
      { queue.enqueue ⟨block.hash, block.parentHash, some block⟩ with
        readySet := insert block.hash queue.readySet
        difficulty } := by
  rw [coherent.ready] at notReady
  rw [coherent.unknown] at notUnknown
  have hashes : ∀ hash, hash ∈ readyHashes
      { queue.enqueue ⟨block.hash, block.parentHash, some block⟩ with
        readySet := insert block.hash queue.readySet
        difficulty } ↔ hash = block.hash ∨ hash ∈ queue.readyHashes := by
    intro hash
    simp only [readyHashes, BlockQueue.enqueue, List.map_append,
      List.map_cons, List.map_nil, List.mem_append, List.mem_singleton]
    tauto
  refine ⟨?_, ?_, coherent.unknownNodup, coherent.unknown, ?_, ?_,
    coherent.unknownCarries⟩
  · simp only [readyHashes, BlockQueue.enqueue, List.map_append,
      List.map_cons, List.map_nil]
    rw [← List.append_assoc, List.nodup_append]
    refine ⟨coherent.nodup, List.nodup_singleton _, ?_⟩
    intro hash member other single same
    rw [List.mem_singleton.mp single] at same
    rw [same] at member
    exact notReady member
  · intro hash
    rw [hashes, ← coherent.ready]
    exact Finset.mem_insert
  · intro hash member
    rcases (hashes hash).mp member with same | old
    · rw [same]
      exact notUnknown
    · exact coherent.apart hash old
  · intro other cases_
    simp only [BlockQueue.enqueue, List.mem_append, List.mem_singleton]
      at cases_
    rcases cases_ with (old | new) | atWork
    · exact coherent.carries other (.inl old)
    · rw [new]
      exact ⟨block, rfl, rfl, rfl⟩
    · exact coherent.carries other (.inr atWork)

end Coherent

/-! ## Calls and runs -/

theorem SizedBlockMap.insert_perm {Key : Type} (less : Key → Key → Bool)
    (key : Key) (hash : H256) (blockData : BlockData)
    (map : SizedBlockMap Key) :
    (map.insert less key hash blockData).Perm
      ((key, hash, blockData) :: map) := by
  unfold SizedBlockMap.insert
  refine List.perm_middle.trans (.cons _ ?_)
  rw [List.takeWhile_append_dropWhile]

/-- Nothing of a hash is in the queue. -/
structure New (queue : BlockQueue) (hash : H256) : Prop where
  ready : hash ∉ queue.readySet
  draining : hash ∉ queue.drainingSet
  unknown : hash ∉ queue.unknownSet
  bad : hash ∉ queue.knownBad

/-- What an import may do. -/
inductive Imports (queue : BlockQueue) (call : Import) :
    ImportResult × BlockQueue → Prop
  | refused (result : ImportResult) (notBad : result ≠ .badChain) :
      Imports queue call (result, queue)
  | future (result : ImportResult) (notBad : result ≠ .badChain)
      (future : SizedBlockMap Int) (difficulty : U256) :
      Imports queue call (result, { queue with future, difficulty })
  | badChain (new : New queue call.block.hash)
      (bad : call.block.parentHash ∈ queue.knownBad) :
      Imports queue call (.badChain, updateBad
        { queue with knownBad := insert call.block.hash queue.knownBad }
        call.block.hash)
  | unknownParent (new : New queue call.block.hash)
      (good : call.block.parentHash ∉ queue.knownBad)
      (parent : queue.unknownParent call.isKnown call.block.parentHash)
      (less : H256 → H256 → Bool) (difficulty : U256) :
      Imports queue call (.unknownParent, { queue with
        unknown := queue.unknown.insert less call.block.parentHash
          call.block.hash (some call.block)
        unknownSet := insert call.block.hash queue.unknownSet
        difficulty })
  | success (new : New queue call.block.hash)
      (good : call.block.parentHash ∉ queue.knownBad)
      (difficulty : U256) :
      Imports queue call (.success, noteReady call.block.hash
        { queue.enqueue ⟨call.block.hash, call.block.parentHash,
            some call.block⟩ with
          readySet := insert call.block.hash queue.readySet
          difficulty })

theorem imports_ (queue : BlockQueue) (call : Import) :
    Imports queue call (queue.import_ call) := by
  unfold BlockQueue.import_
  simp only
  split
  · exact .refused _ nofun
  · rename_i absent
    simp only [not_or] at absent
    have new : New queue call.block.hash :=
      ⟨absent.1, absent.2.1, absent.2.2.1, absent.2.2.2⟩
    split
    · exact .refused _ nofun
    · split
      · exact .refused _ nofun
      · split
        · refine .future _ ?_ _ _
          split <;> exact nofun
        · split
          · rename_i bad
            exact .badChain new bad
          · rename_i good
            split
            · rename_i parent
              exact .unknownParent new good parent _ _
            · exact .success new good _

theorem Imports.of_badChain {call : Import}
    {outcome : ImportResult × BlockQueue} (imports : Imports queue call outcome)
    (bad : outcome.1 = .badChain) :
    New queue call.block.hash ∧ call.block.parentHash ∈ queue.knownBad ∧
      outcome.2 = updateBad
        { queue with knownBad := insert call.block.hash queue.knownBad }
        call.block.hash := by
  cases imports with
  | refused result notBad => exact absurd bad notBad
  | future result notBad => exact absurd bad notBad
  | badChain new parent => exact ⟨new, parent, rfl⟩
  | unknownParent => cases bad
  | success => cases bad

namespace Coherent

/-- A block waits for its parent. -/
theorem await (coherent : Coherent queue) {block : Header}
    (notReady : block.hash ∉ queue.readySet)
    (notUnknown : block.hash ∉ queue.unknownSet)
    (less : H256 → H256 → Bool) {difficulty : U256} :
    Coherent { queue with
      unknown := queue.unknown.insert less block.parentHash block.hash
        (some block)
      unknownSet := insert block.hash queue.unknownSet
      difficulty } := by
  rw [coherent.ready] at notReady
  rw [coherent.unknown] at notUnknown
  have perm := SizedBlockMap.insert_perm less block.parentHash block.hash
    (some block) queue.unknown
  have hashes := perm.map fun entry => entry.2.1
  refine ⟨coherent.nodup, coherent.ready, ?_, ?_, ?_, coherent.carries, ?_⟩
  · refine hashes.nodup_iff.mpr (List.nodup_cons.mpr ⟨notUnknown, ?_⟩)
    exact coherent.unknownNodup
  · intro hash
    refine Iff.trans ?_ hashes.mem_iff.symm
    rw [List.map_cons, List.mem_cons]
    show hash ∈ insert block.hash queue.unknownSet ↔ _
    rw [Finset.mem_insert, coherent.unknown]
    rfl
  · intro hash ready inUnknown
    rcases List.mem_cons.mp (hashes.mem_iff.mp inUnknown) with same | old
    · rw [same] at ready
      exact notReady ready
    · exact coherent.apart hash ready old
  · intro entry member
    rcases List.mem_cons.mp (perm.mem_iff.mp member) with same | old
    · rw [same]
      exact ⟨block, rfl, rfl, rfl⟩
    · exact coherent.unknownCarries entry old

theorem import_ (coherent : Coherent queue) (call : Import)
    (trails : (queue.import_ call).1 = .badChain → PurgeTrails
      { queue with knownBad := insert call.block.hash queue.knownBad }
      call.block.hash) : Coherent (queue.import_ call).2 := by
  have imports := imports_ queue call
  generalize queue.import_ call = outcome at imports trails
  cases imports with
  | refused => exact coherent
  | future =>
      exact ⟨coherent.nodup, coherent.ready, coherent.unknownNodup,
        coherent.unknown, coherent.apart, coherent.carries,
        coherent.unknownCarries⟩
  | badChain => exact (coherent.setKnownBad _).updateBad (trails rfl)
  | unknownParent new => exact coherent.await new.ready new.unknown _
  | success new =>
      exact (coherent.enqueue new.ready new.unknown).noteReady _

theorem drain (coherent : Coherent queue) (max : Nat) :
    Coherent (queue.drain max).2 := by
  unfold BlockQueue.drain
  split
  · refine coherent.shrink rfl rfl (fun _ => id) ?_ ?_
    · exact (((List.drop_sublist _ _).map _).append (.refl _)).append
        (.refl _)
    · intro hash
      refine (foldl_erase_mem _ (fun block : VerifiedBlock =>
        block.info.hash) _ hash).trans ?_
      have parts : queue.readyHashes =
          (queue.verified.take max).map (fun block => block.info.hash) ++
            readyHashes { queue with verified := queue.verified.drop max } := by
        conv_lhs => rw [readyHashes, ← List.take_append_drop max
          queue.verified, List.map_append]
        simp only [readyHashes, List.append_assoc]
      have nodup := coherent.nodup
      rw [coherent.ready, parts, List.mem_append]
      rw [parts, List.nodup_append] at nodup
      constructor
      · intro both
        exact both.1.resolve_left both.2
      · intro member
        refine ⟨.inr member, fun taken => ?_⟩
        exact nodup.2.2 hash taken hash member rfl
  · exact coherent

theorem doneDrain (coherent : Coherent queue)
    (bad : List (List H256 × H256))
    (trails : DrainTrails bad (queue.endDrain bad)) :
    Coherent (queue.doneDrain bad) := by
  have started : Coherent (queue.endDrain bad) :=
    ⟨coherent.nodup, coherent.ready, coherent.unknownNodup, coherent.unknown,
      coherent.apart, coherent.carries, coherent.unknownCarries⟩
  unfold BlockQueue.doneDrain
  generalize queue.endDrain bad = start at started trails
  induction bad generalizing start with
  | nil => exact started
  | cons entry rest induction =>
      exact induction _ ((started.takeAll entry.1).updateBad trails.1) trails.2

theorem clear (coherent : Coherent queue) : Coherent queue.clear := by
  refine ⟨.nil, ?_, .nil, ?_, ?_, ?_, ?_⟩
  · exact fun hash => ⟨nofun, nofun⟩
  · exact fun hash => ⟨nofun, nofun⟩
  · exact nofun
  · intro block cases_
    exact coherent.carries block (.inr (cases_.resolve_left nofun))
  · exact nofun

theorem initial : Coherent {} := by
  refine ⟨.nil, ?_, .nil, ?_, ?_, ?_, ?_⟩
  · exact fun hash => ⟨nofun, nofun⟩
  · exact fun hash => ⟨nofun, nofun⟩
  · exact nofun
  · intro block cases_
    exact cases_.elim nofun nofun
  · exact nofun

end Coherent

/-- The report of a verifier is expected, and a purge removes the ends of
queues. -/
def KeepsReady (queue : BlockQueue) : Step → Prop
  | .import_ call => (queue.import_ call).1 = .badChain → PurgeTrails
      { queue with knownBad := insert call.block.hash queue.knownBad }
      call.block.hash
  | .doneDrain bad => DrainTrails bad (queue.endDrain bad)
  | .finish index success => ∀ work, queue.working[index]? = some work →
      Expected queue work success
  | _ => True

theorem Coherent.step (coherent : Coherent queue) {step : Step}
    (keeps : queue.KeepsReady step) : Coherent (queue.step step) := by
  cases step with
  | import_ call => exact coherent.import_ call keeps
  | tick utcTime =>
      exact ⟨coherent.nodup, coherent.ready, coherent.unknownNodup,
        coherent.unknown, coherent.apart, coherent.carries,
        coherent.unknownCarries⟩
  | drain max => exact coherent.drain max
  | doneDrain bad => exact coherent.doneDrain bad keeps
  | noteReady good => exact coherent.noteReady good
  | retryAllUnknown => exact coherent.retryAllUnknown
  | clear => exact coherent.clear
  | take placeholder => exact coherent.take placeholder
  | finish index success => exact coherent.finish keeps

/-- Every step of a run meets a condition on the queue before it. -/
def Throughout (condition : BlockQueue → Step → Prop) :
    BlockQueue → List Step → Prop
  | _, [] => True
  | queue, step :: rest =>
      condition queue step ∧ Throughout condition (queue.step step) rest

/-- A run keeps what each of its steps keeps. -/
theorem run_keeps {condition : BlockQueue → Step → Prop}
    {kept : BlockQueue → Prop}
    (keeps : ∀ queue step, condition queue step → kept queue →
      kept (queue.step step))
    {steps : List Step} (throughout : Throughout condition queue steps)
    (initially : kept queue) : kept (queue.run steps) := by
  induction steps generalizing queue with
  | nil => exact initially
  | cons step rest induction =>
      exact induction throughout.2 (keeps queue step throughout.1 initially)

/-- The ready set is as large as the three queues in every run whose reports
are expected and whose purges remove the ends of queues. -/
theorem run_invariants (steps : List Step)
    (keeps : Throughout KeepsReady {} steps) :
    (BlockQueue.run {} steps).invariants := by
  have coherent : Coherent (BlockQueue.run {} steps) :=
    run_keeps (fun _ _ keepsHere coherent => coherent.step keepsHere) keeps
      Coherent.initial
  exact coherent.invariants

/-- The queue is cleared while a block is verified and the block is imported
again; then the verifier reports a failure. -/
theorem late_report_breaks :
    (BlockQueue.run {} [importSample 1 0, .take (hashOfNat 500), .clear,
      importSample 1 0, .finish 0 false]).invariants = false := by
  decide +kernel

/-- One block fails while another one is verified. -/
theorem run_invariants_sample :
    (BlockQueue.run {} [importSample 1 0, importSample 2 0,
      .take (hashOfNat 500), .take (hashOfNat 501),
      .finish 0 false]).invariants := by
  have imports : ∀ queue : BlockQueue, queue.knownBad = ∅ →
      ∀ hash, queue.KeepsReady (importSample hash 0) := by
    intro queue none hash bad
    obtain ⟨-, parent, -⟩ := (imports_ queue _).of_badChain bad
    rw [none] at parent
    cases parent
  refine run_invariants _ ⟨imports _ rfl 1, imports _ (by decide +kernel) 2,
    trivial, trivial, ?_, trivial⟩
  intro work found
  have working : (BlockQueue.run {} [importSample 1 0, importSample 2 0,
      .take (hashOfNat 500), .take (hashOfNat 501)]).working[0]? =
      some ⟨hashOfNat 1, hashOfNat 0, some (headerSample 1 0)⟩ := by
    decide +kernel
  cases working.symm.trans found
  constructor
  · decide +kernel
  · intro _ _
    decide +kernel

end BlockQueue

end Aecmio
