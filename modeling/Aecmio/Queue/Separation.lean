import Aecmio.Queue.Ready

/-!
# Where a hash is

A hash is in at most one of the ready set, the draining set and the set of
the blocks whose parents are unknown, and no block waits for a parent that is
ready or drained.  Unlike the size of the ready set this survives late
reports and purges that return the wrong blocks: what is in a queue without
being ready has been marked as bad.
-/

namespace Aecmio

namespace BlockQueue

variable {queue queue' : BlockQueue}

/-! ## Blocks that join -/

/-- A block hangs on a hash through blocks that wait. -/
inductive Waits (queue : BlockQueue) (root : H256) : H256 → Prop
  | child {entry : H256 × H256 × BlockData} (member : entry ∈ queue.unknown)
      (parent : entry.1 = root) : Waits queue root entry.2.1
  | further {entry : H256 × H256 × BlockData} (member : entry ∈ queue.unknown)
      (parent : Waits queue root entry.1) : Waits queue root entry.2.1

/-- Every block stands behind its parent, or its parent is one of the roots. -/
def ParentsFirst : List H256 → List UnverifiedBlock → Prop
  | _, [] => True
  | roots, block :: rest => block.parentHash ∈ roots ∧
      ParentsFirst (block.hash :: roots) rest

theorem ParentsFirst.mono {roots roots' : List H256}
    {blocks : List UnverifiedBlock} (first : ParentsFirst roots blocks)
    (subset : roots ⊆ roots') : ParentsFirst roots' blocks := by
  induction blocks generalizing roots roots' with
  | nil => trivial
  | cons block rest induction =>
      exact ⟨subset first.1,
        induction first.2 (List.cons_subset_cons _ subset)⟩

/-- Blocks with one parent, and then others. -/
theorem ParentsFirst.append {roots roots' : List H256}
    {blocks others : List UnverifiedBlock}
    (parents : ∀ block ∈ blocks, block.parentHash ∈ roots)
    (first : ParentsFirst roots' others)
    (subset : ∀ root ∈ roots',
      root ∈ roots ∨ root ∈ blocks.map fun block => block.hash) :
    ParentsFirst roots (blocks ++ others) := by
  induction blocks generalizing roots with
  | nil =>
      refine first.mono fun root member => ?_
      exact (subset root member).resolve_right List.not_mem_nil
  | cons block rest induction =>
      refine ⟨parents block List.mem_cons_self, induction ?_ ?_⟩
      · intro other member
        exact List.mem_cons_of_mem _
          (parents other (List.mem_cons_of_mem _ member))
      · intro root member
        rcases subset root member with old | new
        · exact .inl (List.mem_cons_of_mem _ old)
        · rw [List.map_cons, List.mem_cons] at new
          rcases new with same | later
          · exact .inl (by rw [same]; exact List.mem_cons_self)
          · exact .inr later

/-- The entry of a block in `m_unknown`. -/
def UnverifiedBlock.entry (block : UnverifiedBlock) :
    H256 × H256 × BlockData :=
  (block.parentHash, block.hash, block.blockData)

/-- Blocks go from `m_unknown` to the end of `m_unverified`. -/
structure Moves (joined : List UnverifiedBlock) (queue queue' : BlockQueue) :
    Prop where
  rest : queue' = { queue with
    unknown := queue'.unknown
    unknownSet := queue'.unknownSet
    readySet := queue'.readySet
    unverified := queue'.unverified
    history := queue'.history }
  unverified : queue'.unverified = queue.unverified ++ joined
  unknown : (queue'.unknown ++ joined.map UnverifiedBlock.entry).Perm
    queue.unknown
  unknownSet : ∀ hash, hash ∈ queue'.unknownSet ↔ hash ∈ queue.unknownSet ∧
    hash ∉ joined.map fun block => block.hash
  readySet : ∀ hash, hash ∈ queue'.readySet ↔ hash ∈ queue.readySet ∨
    hash ∈ joined.map fun block => block.hash

/-- All that hang on the roots go, parents first. -/
structure Joins (roots : List H256) (joined : List UnverifiedBlock)
    (queue queue' : BlockQueue) : Prop extends
    Moves joined queue queue' where
  parentsFirst : ParentsFirst roots joined
  closed : ∀ entry ∈ queue'.unknown, entry.1 ∉ roots ∧
    entry.1 ∉ joined.map fun block => block.hash

theorem Joins.refl (queue : BlockQueue) : Joins [] [] queue queue := by
  refine ⟨⟨rfl, ?_, ?_, ?_, ?_⟩, trivial, ?_⟩ <;> simp

theorem Admits.moves {parent : H256} (admits : Admits parent queue queue') :
    Moves (queue.children parent) queue queue' := by
  refine ⟨admits.rest, admits.unverified, ?_, admits.unknownSet,
    admits.readySet⟩
  have entries : (queue.children parent).map UnverifiedBlock.entry =
      queue.unknown.filter fun entry => entry.1 = parent := by
    rw [children, SizedBlockMap.byKeyEqual, List.map_map, List.map_map]
    refine (List.map_congr_left ?_).trans (List.map_id _)
    intro entry member
    have key := of_decide_eq_true (List.mem_filter.mp member).2
    exact Prod.ext key.symm rfl
  have split := List.filter_append_perm
    (fun entry : H256 × H256 × BlockData => decide (entry.1 ≠ parent))
    queue.unknown
  rw [entries, admits.unknown]
  simpa [SizedBlockMap.eraseKey] using split

theorem Moves.trans {first second : List UnverifiedBlock}
    {middle : BlockQueue} (moves : Moves first queue middle)
    (moves' : Moves second middle queue') :
    Moves (first ++ second) queue queue' := by
  refine ⟨?_, ?_, ?_, ?_, ?_⟩
  · rw [moves'.rest, moves.rest]
  · rw [moves'.unverified, moves.unverified, List.append_assoc]
  · refine List.Perm.trans ?_ moves.unknown
    rw [List.map_append]
    refine List.Perm.trans ?_ (moves'.unknown.append_right _)
    rw [List.append_assoc]
    exact List.perm_append_comm.append_left _
  · intro hash
    rw [moves'.unknownSet, moves.unknownSet, List.map_append,
      List.mem_append]
    tauto
  · intro hash
    rw [moves'.readySet, moves.readySet, List.map_append, List.mem_append]
    tauto

/-- One round, and what the others take. -/
theorem Joins.cons {parent : H256} {goodQueue : List H256}
    {joined : List UnverifiedBlock} {middle : BlockQueue}
    (admits : Admits parent queue middle)
    (joins : Joins (goodQueue ++ (queue.children parent).map fun block =>
      block.hash) joined middle queue') :
    Joins (parent :: goodQueue) (queue.children parent ++ joined) queue
      queue' := by
  refine ⟨admits.moves.trans joins.toMoves, ?_, ?_⟩
  · refine ParentsFirst.append ?_ joins.parentsFirst ?_
    · intro block child
      rw [(mem_children.mp child).1]
      exact List.mem_cons_self
    · intro root member
      rw [List.mem_append] at member
      exact member.imp (List.mem_cons_of_mem _) id
  · intro entry member
    obtain ⟨notRoot, notJoined⟩ := joins.closed entry member
    have before : entry ∈ middle.unknown :=
      joins.unknown.subset (List.mem_append_left _ member)
    rw [admits.unknown] at before
    have key := of_decide_eq_true (List.mem_filter.mp before).2
    rw [List.mem_append, not_or] at notRoot
    rw [List.map_append, List.mem_append, not_or, List.mem_cons, not_or]
    exact ⟨⟨key, notRoot.1⟩, notRoot.2, notJoined⟩

theorem length_children (parent : H256) (queue : BlockQueue) :
    queue.unknown.length = (queue.unknown.eraseKey parent).length +
      (queue.children parent).length := by
  rw [children, SizedBlockMap.byKeyEqual, List.length_map, List.length_map,
    SizedBlockMap.eraseKey]
  have general := @List.length_eq_length_filter_add _ queue.unknown
    (fun entry => decide (entry.1 ≠ parent))
  simpa using general

theorem readyLoop_joins (fuel : Nat) (goodQueue : List H256)
    (queue : BlockQueue)
    (enough : queue.unknown.length + goodQueue.length ≤ fuel) :
    ∃ joined, Joins goodQueue joined queue
      (readyLoop fuel goodQueue queue) := by
  induction fuel generalizing goodQueue queue with
  | zero =>
      have nothing : goodQueue = [] := by
        apply List.eq_nil_of_length_eq_zero
        omega
      rw [nothing]
      exact ⟨[], .refl queue⟩
  | succ fuel induction =>
      cases goodQueue with
      | nil => exact ⟨[], .refl queue⟩
      | cons parent goodQueue =>
          have admits := admits parent queue
          have children : (queue.unknown.byKeyEqual parent).map Prod.fst =
              (queue.children parent).map fun block => block.hash := by
            simp [BlockQueue.children]
          have split := length_children parent queue
          unfold readyLoop
          simp only
          rw [children]
          obtain ⟨joined, joins⟩ := induction (goodQueue ++
            (queue.children parent).map fun block => block.hash) _ (by
              rw [admits.unknown, List.length_append, List.length_map]
              rw [List.length_cons] at enough
              omega)
          exact ⟨_, joins.cons admits⟩

theorem noteReady_joins (good : H256) (queue : BlockQueue) :
    ∃ joined, Joins [good] joined queue (queue.noteReady good) :=
  readyLoop_joins _ [good] queue (Nat.le_refl _)

namespace Moves

variable {joined : List UnverifiedBlock}

theorem came (moves : Moves joined queue queue')
    {block : UnverifiedBlock} (member : block ∈ joined) :
    block.entry ∈ queue.unknown :=
  moves.unknown.subset
    (List.mem_append_right _ (List.mem_map_of_mem member))

theorem stayed (moves : Moves joined queue queue')
    {entry : H256 × H256 × BlockData} (member : entry ∈ queue'.unknown) :
    entry ∈ queue.unknown :=
  moves.unknown.subset (List.mem_append_left _ member)

theorem readyHashes (moves : Moves joined queue queue') :
    queue'.readyHashes = queue.readyHashes ++
      joined.map fun block => block.hash := by
  have verified : queue'.verified = queue.verified := by rw [moves.rest]
  have verifying : queue'.verifying = queue.verifying := by rw [moves.rest]
  simp [BlockQueue.readyHashes, moves.unverified, verified, verifying]

/-- The hashes of the blocks that wait are divided. -/
theorem hashes (moves : Moves joined queue queue') :
    (queue'.unknownHashes ++ joined.map fun block => block.hash).Perm
      queue.unknownHashes := by
  have perm := moves.unknown.map fun entry => entry.2.1
  rw [List.map_append, List.map_map] at perm
  exact perm

end Moves

namespace Joins

variable {joined : List UnverifiedBlock}

theorem waits {good : H256} {joined : List UnverifiedBlock}
    {roots : List H256} (parentsFirst : ParentsFirst roots joined)
    (came : ∀ block ∈ joined, block.entry ∈ queue.unknown)
    (rooted : ∀ root ∈ roots, root = good ∨ Waits queue good root) :
    ∀ hash ∈ joined.map fun block => block.hash, Waits queue good hash := by
  induction joined generalizing roots with
  | nil => exact fun _ member => absurd member List.not_mem_nil
  | cons block rest induction =>
      have here : Waits queue good block.hash := by
        have entry := came block List.mem_cons_self
        rcases rooted _ parentsFirst.1 with root | waiting
        · exact Waits.child entry root
        · exact Waits.further entry waiting
      intro hash member
      rw [List.map_cons, List.mem_cons] at member
      rcases member with rfl | later
      · exact here
      · refine induction parentsFirst.2 ?_ ?_ hash later
        · intro other inside
          exact came other (List.mem_cons_of_mem _ inside)
        · intro root inside
          rcases List.mem_cons.mp inside with rfl | old
          · exact .inr here
          · exact rooted root old

/-- Exactly what hangs on the root joins. -/
theorem mem_iff {good : H256} (joins : Joins [good] joined queue queue')
    (hash : H256) :
    hash ∈ joined.map (fun block => block.hash) ↔ Waits queue good hash := by
  constructor
  · refine waits joins.parentsFirst (fun _ => joins.came) ?_ hash
    intro root member
    exact .inl (List.mem_singleton.mp member)
  · intro waiting
    induction waiting with
    | @child entry member parent =>
        rcases List.mem_append.mp (joins.unknown.symm.subset member) with
          stays | moves
        · exact absurd (by rw [parent]; exact List.mem_singleton_self good)
            (joins.closed entry stays).1
        · obtain ⟨block, inside, same⟩ := List.mem_map.mp moves
          exact List.mem_map.mpr ⟨block, inside, by rw [← same]; rfl⟩
    | @further entry member parent induction =>
        rcases List.mem_append.mp (joins.unknown.symm.subset member) with
          stays | moves
        · exact absurd induction (joins.closed entry stays).2
        · obtain ⟨block, inside, same⟩ := List.mem_map.mp moves
          exact List.mem_map.mpr ⟨block, inside, by rw [← same]; rfl⟩

end Joins

/-! ## The invariant -/

/-- No block has the hash of some block as its uncle hash: the one is the
hash of a list of headers, the other that of a header. -/
def UnclesOutside (blocks : Header → Prop) : Prop :=
  ∀ first second, blocks first → blocks second →
    first.sha3Uncles ≠ second.hash

/-- The bytes are those of one of some blocks. -/
def CarriesOne (blocks : Header → Prop) (hash parentHash : H256)
    (blockData : BlockData) : Prop :=
  ∃ info, blockData = some info ∧ blocks info ∧ info.hash = hash ∧
    info.parentHash = parentHash

/-- Where the hashes are, when some blocks may still wait for a block that is
ready. -/
structure Placed (blocks : Header → Prop) (queue : BlockQueue) : Prop where
  nodup : queue.readyHashes.Nodup
  known : ∀ hash ∈ queue.readyHashes,
    hash ∈ queue.readySet ∨ hash ∈ queue.knownBad
  unknownNodup : queue.unknownHashes.Nodup
  unknown : ∀ hash, hash ∈ queue.unknownSet ↔ hash ∈ queue.unknownHashes
  waiting : ∀ hash ∈ queue.unknownHashes, hash ∉ queue.readySet ∧
    hash ∉ queue.drainingSet ∧ hash ∉ queue.readyHashes
  drained : ∀ hash ∈ queue.drainingSet,
    hash ∉ queue.readySet ∧ hash ∉ queue.readyHashes
  carries : ∀ block, block ∈ queue.unverified ∨ block ∈ queue.working →
    CarriesOne blocks block.hash block.parentHash block.blockData
  unknownCarries : ∀ entry ∈ queue.unknown,
    CarriesOne blocks entry.2.1 entry.1 entry.2.2
  finished : ∀ block ∈ queue.verifying, block.blockData.isSome →
    blocks block.info

/-- No block waits for one that has come. -/
structure Arranged (blocks : Header → Prop) (queue : BlockQueue) : Prop
    extends Placed blocks queue where
  parents : ∀ entry ∈ queue.unknown, entry.1 ∉ queue.readySet ∧
    entry.1 ∉ queue.drainingSet ∧ entry.1 ∉ queue.readyHashes

variable {blocks : Header → Prop}

/-- Blocks leave the queues or move on in them. -/
structure Fewer (blocks : Header → Prop) (queue queue' : BlockQueue) :
    Prop where
  hashes : queue'.readyHashes.Sublist queue.readyHashes
  ready : ∀ hash ∈ queue'.readySet, hash ∈ queue.readySet
  known : ∀ hash ∈ queue'.readyHashes,
    hash ∈ queue.readySet ∨ hash ∈ queue.knownBad →
      hash ∈ queue'.readySet ∨ hash ∈ queue'.knownBad
  draining : ∀ hash ∈ queue'.drainingSet, hash ∈ queue.drainingSet ∨
    hash ∈ queue.readyHashes ∧ hash ∉ queue'.readySet ∧
      hash ∉ queue'.readyHashes
  unknown : queue'.unknown.Sublist queue.unknown
  unknownSet : ∀ hash, hash ∈ queue'.unknownSet ↔
    hash ∈ queue'.unknownHashes
  taken : ∀ block, block ∈ queue'.unverified ∨ block ∈ queue'.working →
    block ∈ queue.unverified ∨ block ∈ queue.working
  finished : ∀ block ∈ queue'.verifying, block.blockData.isSome →
    block ∈ queue.verifying ∨ blocks block.info

theorem Arranged.fewer (arranged : Arranged blocks queue)
    (fewer : Fewer blocks queue queue') : Arranged blocks queue' := by
  have unknownHashes : queue'.unknownHashes ⊆ queue.unknownHashes :=
    (fewer.unknown.map _).subset
  have apart : ∀ hash, hash ∉ queue.readySet → hash ∉ queue.drainingSet →
      hash ∉ queue.readyHashes → hash ∉ queue'.readySet ∧
        hash ∉ queue'.drainingSet ∧ hash ∉ queue'.readyHashes := by
    intro hash notReady notDraining notQueued
    refine ⟨fun ready => notReady (fewer.ready hash ready), ?_,
      fun queued => notQueued (fewer.hashes.subset queued)⟩
    intro draining
    rcases fewer.draining hash draining with old | new
    · exact notDraining old
    · exact notQueued new.1
  refine ⟨⟨arranged.nodup.sublist fewer.hashes, ?_, ?_, fewer.unknownSet, ?_,
    ?_, ?_, ?_, ?_⟩, ?_⟩
  · intro hash queued
    exact fewer.known hash queued
      (arranged.known hash (fewer.hashes.subset queued))
  · exact arranged.unknownNodup.sublist (fewer.unknown.map _)
  · intro hash waits
    obtain ⟨notReady, notDraining, notQueued⟩ :=
      arranged.waiting hash (unknownHashes waits)
    exact apart hash notReady notDraining notQueued
  · intro hash draining
    rcases fewer.draining hash draining with old | new
    · obtain ⟨notReady, notQueued⟩ := arranged.drained hash old
      exact ⟨fun ready => notReady (fewer.ready hash ready),
        fun queued => notQueued (fewer.hashes.subset queued)⟩
    · exact new.2
  · intro block inside
    exact arranged.carries block (fewer.taken block inside)
  · intro entry inside
    exact arranged.unknownCarries entry (fewer.unknown.subset inside)
  · intro block inside done
    rcases fewer.finished block inside done with old | new
    · exact arranged.finished block old done
    · exact new
  · intro entry inside
    obtain ⟨notReady, notDraining, notQueued⟩ :=
      arranged.parents entry (fewer.unknown.subset inside)
    exact apart entry.1 notReady notDraining notQueued

namespace Arranged

/-- Blocks that were taken out of the queues are marked, and unknown ones
with them. -/
theorem marks (arranged : Arranged blocks queue) {middle : BlockQueue}
    {marked : List H256} {keep : H256 × H256 × BlockData → Bool}
    (marks : Marks marked keep middle queue')
    (rest : middle = { queue with
      verified := middle.verified
      verifying := middle.verifying
      unverified := middle.unverified })
    (verified : middle.verified.Sublist queue.verified)
    (verifying : middle.verifying.Sublist queue.verifying)
    (unverified : middle.unverified.Sublist queue.unverified) :
    Arranged blocks queue' := by
  have unknown : middle.unknown = queue.unknown := by rw [rest]
  have unknownSet : middle.unknownSet = queue.unknownSet := by rw [rest]
  have readySet : middle.readySet = queue.readySet := by rw [rest]
  have knownBad : middle.knownBad = queue.knownBad := by rw [rest]
  have working : middle.working = queue.working := by rw [rest]
  have drainingSet : queue'.drainingSet = queue.drainingSet := by
    rw [marks.rest, rest]
  have filtered : queue'.unknown = queue.unknown.filter keep := by
    rw [marks.unknown, unknown]
  have split := @mem_map_filter _
    (fun entry : H256 × H256 × BlockData => entry.2.1)
    (fun entry => !keep entry) queue.unknown arranged.unknownNodup
  simp only [Bool.not_not] at split
  apply arranged.fewer
  refine ⟨?_, ?_, ?_, ?_, ?_, ?_, ?_, ?_⟩
  · unfold readyHashes
    rw [marks.verified, marks.verifying, marks.unverified]
    exact ((verified.map _).append (verifying.map _)).append
      (unverified.map _)
  · intro hash ready
    rw [marks.readySet, readySet] at ready
    exact ready.1
  · intro hash _ before
    rw [marks.readySet, marks.knownBad, readySet, knownBad]
    tauto
  · intro hash draining
    rw [drainingSet] at draining
    exact .inl draining
  · rw [filtered]
    exact List.filter_sublist
  · intro hash
    rw [marks.unknownSet, unknownSet, arranged.unknown, unknownHashes,
      unknownHashes, filtered, split, removedBy, unknown]
  · intro block inside
    rw [marks.unverified, marks.working, working] at inside
    exact inside.imp (unverified.subset ·) id
  · intro block inside _
    rw [marks.verifying] at inside
    exact .inl (verifying.subset inside)

theorem collectUnknownBad (arranged : Arranged blocks queue) (bad : H256) :
    Arranged blocks (queue.collectUnknownBad bad) := by
  obtain ⟨keep, marks, -⟩ := collectUnknownBad_marks queue bad
  exact arranged.marks marks rfl (.refl _) (.refl _) (.refl _)

theorem purgeVerified (arranged : Arranged blocks queue) :
    Arranged blocks queue.purgeVerified := by
  obtain ⟨keep, marks, -⟩ := markAll_marks _ { queue with
    verified := (removeIf VerifiedBlock.moved queue.badVerified
      queue.verified).1 }
  exact arranged.marks marks rfl List.filter_sublist (.refl _) (.refl _)

theorem purgeUnverified (arranged : Arranged blocks queue) :
    Arranged blocks queue.purgeUnverified := by
  obtain ⟨keep, marks, -⟩ := markAll_marks _ { queue with
    unverified := (removeIf UnverifiedBlock.moved queue.badUnverified
      queue.unverified).1 }
  exact arranged.marks marks rfl (.refl _) (.refl _) List.filter_sublist

theorem purgeVerifying (arranged : Arranged blocks queue) :
    Arranged blocks queue.purgeVerifying := by
  obtain ⟨keep, marks, -⟩ := markAll_marks _ { queue with
    verifying := (removeIf VerifiedBlock.moved queue.badVerifying
      queue.verifying).1 }
  exact arranged.marks marks rfl (.refl _) List.filter_sublist (.refl _)

theorem purgeLoop (arranged : Arranged blocks queue) (fuel : Nat) :
    Arranged blocks (BlockQueue.purgeLoop fuel queue) := by
  induction fuel generalizing queue with
  | zero => exact arranged
  | succ fuel induction =>
      have round : Arranged blocks queue.purgeRound :=
        arranged.purgeVerified.purgeUnverified.purgeVerifying
      unfold BlockQueue.purgeLoop
      split
      · exact induction round
      · exact round

/-- A purge, whichever blocks it returns. -/
theorem updateBad (arranged : Arranged blocks queue) (bad : H256) :
    Arranged blocks (queue.updateBad bad) :=
  (arranged.collectUnknownBad bad).purgeLoop _

/-- More hashes are bad. -/
theorem setKnownBad (arranged : Arranged blocks queue) {knownBad : Finset H256}
    (more : queue.knownBad ⊆ knownBad) :
    Arranged blocks { queue with knownBad } := by
  apply arranged.fewer
  exact ⟨.refl _, fun _ => id, fun hash _ => Or.imp id (more ·),
    fun _ => .inl, .refl _, arranged.unknown, fun _ => id,
    fun _ inside _ => .inl inside⟩

end Arranged

/-! ## Verifiers -/

namespace Arranged

theorem take (arranged : Arranged blocks queue) (placeholder : H256) :
    Arranged blocks (queue.take placeholder) := by
  cases waiting : queue.unverified with
  | nil =>
      have same : queue.take placeholder = queue := by
        rw [BlockQueue.take, waiting]
      rwa [same]
  | cons work rest =>
      have hashes : (queue.take placeholder).readyHashes =
          queue.readyHashes := by
        simp [BlockQueue.take, waiting, readyHashes, VerifiedBlock.slot]
      apply arranged.fewer
      refine ⟨by rw [hashes], ?_, ?_, ?_, ?_, ?_, ?_, ?_⟩
      · simp [BlockQueue.take, waiting]
      · intro hash _ before
        simpa [BlockQueue.take, waiting] using before
      · intro hash draining
        left
        simpa [BlockQueue.take, waiting] using draining
      · simp [BlockQueue.take, waiting]
      · simp only [BlockQueue.take, waiting]
        exact arranged.unknown
      · intro block inside
        rw [waiting]
        simp only [BlockQueue.take, waiting, List.mem_append,
          List.mem_singleton] at inside
        rcases inside with later | working | first
        · exact .inl (List.mem_cons_of_mem _ later)
        · exact .inr working
        · exact .inl (by rw [first]; exact List.mem_cons_self)
      · intro block inside done
        simp only [BlockQueue.take, waiting, List.mem_append,
          List.mem_singleton] at inside
        rcases inside with old | new
        · exact .inl old
        · rw [new] at done
          cases done

theorem takeAll (arranged : Arranged blocks queue) (placeholders : List H256) :
    Arranged blocks (placeholders.foldl
      (fun queue placeholder => queue.take placeholder) queue) := by
  induction placeholders generalizing queue with
  | nil => exact arranged
  | cons placeholder rest induction =>
      exact induction (arranged.take placeholder)

/-- A finished block leaves the head of `m_verifying`. -/
theorem judge {block : VerifiedBlock} {rest : List VerifiedBlock}
    (arranged : Arranged blocks { queue with verifying := block :: rest })
    (finished : block.blockData.isSome) :
    Arranged blocks { queue.judge block with verifying := rest } := by
  have slot : block.slot = block.info.hash := if_pos finished
  by_cases bad : block.info.parentHash ∈ queue.knownBad
  · rw [judge_bad bad]
    apply arranged.fewer
    refine ⟨?_, ?_, ?_, fun _ => .inl, .refl _, arranged.unknown,
      fun _ => id, ?_⟩
    · exact ((List.Sublist.refl _).append
        ((List.sublist_cons_self _ _).map _)).append (.refl _)
    · intro hash ready
      exact Finset.mem_of_mem_erase ready
    · intro hash _ before
      show hash ∈ queue.readySet.erase _ ∨ hash ∈ insert _ queue.knownBad
      rw [Finset.mem_erase, Finset.mem_insert]
      by_cases same : hash = block.info.hash
      · exact .inr (.inl same)
      · exact before.imp (fun ready => ⟨same, ready⟩) .inr
    · intro other inside _
      exact .inl (List.mem_cons_of_mem _ inside)
  · rw [judge_good bad]
    apply arranged.fewer
    refine ⟨?_, fun _ => id, fun _ _ => id, fun _ => .inl, .refl _,
      arranged.unknown, fun _ => id, ?_⟩
    · simp [readyHashes, slot]
    · intro other inside _
      exact .inl (List.mem_cons_of_mem _ inside)

theorem drainLoop {verifying : List VerifiedBlock}
    (arranged : Arranged blocks { queue with verifying }) :
    Arranged blocks (queue.drainLoop verifying) := by
  induction verifying generalizing queue with
  | nil => exact arranged
  | cons block rest induction =>
      unfold BlockQueue.drainLoop
      split
      · rename_i finished
        exact induction (arranged.judge finished)
      · exact arranged

theorem drainVerified (arranged : Arranged blocks queue) :
    Arranged blocks queue.drainVerified :=
  arranged.drainLoop

theorem reportBad (arranged : Arranged blocks queue) (work : UnverifiedBlock) :
    Arranged blocks (queue.reportBad work) := by
  refine drainVerified (arranged.fewer ?_)
  refine ⟨?_, ?_, ?_, fun _ => .inl, .refl _, arranged.unknown, fun _ => id,
    ?_⟩
  · exact Coherent.sublist_verifying queue List.filter_sublist
  · intro hash ready
    exact Finset.mem_of_mem_erase ready
  · intro hash _ before
    show hash ∈ queue.readySet.erase _ ∨ hash ∈ insert _ queue.knownBad
    rw [Finset.mem_erase, Finset.mem_insert]
    by_cases same : hash = work.hash
    · exact .inr (.inl same)
    · exact before.imp (fun ready => ⟨same, ready⟩) .inr
  · intro block inside _
    exact .inl (List.mem_filter.mp inside).1

/-- A result takes the place of what stands for its block. -/
theorem setVerifying (arranged : Arranged blocks queue)
    {verifying : List VerifiedBlock}
    (slots : verifying.map VerifiedBlock.slot =
      queue.verifying.map VerifiedBlock.slot)
    (finished : ∀ block ∈ verifying, block.blockData.isSome →
      block ∈ queue.verifying ∨ blocks block.info) :
    Arranged blocks { queue with verifying } := by
  have hashes : readyHashes { queue with verifying } =
      queue.readyHashes := by
    rw [readyHashes, readyHashes, slots]
  apply arranged.fewer
  exact ⟨by rw [hashes], fun _ => id, fun _ _ => id, fun _ => .inl, .refl _,
    arranged.unknown, fun _ => id, finished⟩

theorem mem_replace {hash : H256} {result block : VerifiedBlock}
    {verifying : List VerifiedBlock}
    (inside : block ∈ replace hash result verifying) :
    block ∈ verifying ∨ block = result := by
  induction verifying with
  | nil => cases inside
  | cons first rest induction =>
      unfold replace at inside
      split at inside
      · rcases List.mem_cons.mp inside with same | later
        · exact .inr same
        · exact .inl (List.mem_cons_of_mem _ later)
      · rcases List.mem_cons.mp inside with same | later
        · exact .inl (by rw [same]; exact List.mem_cons_self)
        · exact (induction later).imp (List.mem_cons_of_mem _) id

theorem reportGood (arranged : Arranged blocks queue)
    (apart : UnclesOutside blocks) {work : UnverifiedBlock} {info : Header}
    (known : blocks info) (hash : info.hash = work.hash) :
    Arranged blocks (queue.reportGood work { info, blockData := some info }) := by
  have slots : ∀ block ∈ queue.verifying,
      block.info.sha3Uncles = work.hash → block.slot = work.hash := by
    intro block member same
    unfold VerifiedBlock.slot
    split
    · rename_i done
      rw [← hash] at same
      exact absurd same
        (apart block.info info (arranged.finished block member done) known)
    · exact same
  unfold BlockQueue.reportGood
  split
  · exact arranged
  · rename_i first rest verifying
    split
    · rename_i next
      have filled : Arranged blocks { queue with
          verifying := { info, blockData := some info } :: rest } := by
        refine arranged.setVerifying ?_ ?_
        · rw [verifying, List.map_cons, List.map_cons,
            slots first (by rw [verifying]; exact List.mem_cons_self) next]
          exact congrArg (· :: _) hash
        · intro block inside _
          rcases List.mem_cons.mp inside with same | later
          · exact .inr (by rw [same]; exact known)
          · exact .inl (by rw [verifying]; exact List.mem_cons_of_mem _ later)
      have judged := @Arranged.judge { queue with verifying := rest } blocks _
        rest filled rfl
      have same := setVerifying_judge { queue with verifying := rest }
        { info, blockData := some info }
      rw [same] at judged
      exact judged.drainVerified
    · refine arranged.setVerifying (map_slot_replace hash slots) ?_
      intro block inside _
      rcases mem_replace inside with old | new
      · exact .inl old
      · exact .inr (by rw [new]; exact known)

/-- What was noted and who works does not matter. -/
theorem setWorking (arranged : Arranged blocks queue)
    {working : List UnverifiedBlock} {history : History}
    (fewer : ∀ block ∈ working, block ∈ queue.working) :
    Arranged blocks { queue with working, history } := by
  apply arranged.fewer
  exact ⟨.refl _, fun _ => id, fun _ _ => id, fun _ => .inl, .refl _,
    arranged.unknown, fun block => Or.imp id (fewer block),
    fun _ inside _ => .inl inside⟩

theorem finish (arranged : Arranged blocks queue) (apart : UnclesOutside blocks)
    (index : Nat) (success : Bool) :
    Arranged blocks (queue.finish index success) := by
  unfold BlockQueue.finish
  split
  · exact arranged
  · rename_i work found
    obtain ⟨info, data, known, hash, -⟩ := arranged.carries work
      (.inr (List.mem_of_getElem? found))
    have fewer : ∀ block ∈ queue.working.eraseIdx index,
        block ∈ queue.working :=
      fun block => List.mem_of_mem_eraseIdx
    rw [data]
    cases success with
    | true => exact (arranged.setWorking fewer).reportGood apart known hash
    | false => exact (arranged.setWorking fewer).reportBad work

/-! ## Drains -/

theorem drain (arranged : Arranged blocks queue) (max : Nat) :
    Arranged blocks (queue.drain max).2 := by
  unfold BlockQueue.drain
  split
  · have parts : queue.readyHashes =
        (queue.verified.take max).map (fun block => block.info.hash) ++
          readyHashes { queue with verified := queue.verified.drop max } := by
      conv_lhs => rw [readyHashes, ← List.take_append_drop max
        queue.verified, List.map_append]
      simp only [readyHashes, List.append_assoc]
    have nodup := arranged.nodup
    rw [parts, List.nodup_append] at nodup
    have erased := foldl_erase_mem (queue.verified.take max)
      (fun block : VerifiedBlock => block.info.hash) queue.readySet
    have inserted := foldl_insert_mem (queue.verified.take max)
      (fun block : VerifiedBlock => block.info.hash) ∅
    apply arranged.fewer
    refine ⟨?_, ?_, ?_, ?_, .refl _, arranged.unknown, fun _ => id,
      fun _ inside _ => .inl inside⟩
    · exact (((List.drop_sublist _ _).map _).append (.refl _)).append
        (.refl _)
    · intro hash ready
      exact ((erased hash).mp ready).1
    · intro hash queued before
      refine before.imp (fun ready => (erased hash).mpr ⟨ready, ?_⟩) id
      intro taken
      exact nodup.2.2 hash taken hash queued rfl
    · intro hash draining
      have taken := ((inserted hash).mp draining).resolve_left
        (Finset.notMem_empty hash)
      refine .inr ⟨?_, ?_, ?_⟩
      · rw [parts]
        exact List.mem_append_left _ taken
      · intro ready
        exact ((erased hash).mp ready).2 taken
      · intro queued
        exact nodup.2.2 hash taken hash queued rfl
  · exact arranged

theorem doneDrain (arranged : Arranged blocks queue)
    (bad : List (List H256 × H256)) :
    Arranged blocks (queue.doneDrain bad) := by
  have started : Arranged blocks (queue.endDrain bad) := by
    apply arranged.fewer
    refine ⟨.refl _, fun _ => id, ?_, ?_, .refl _, arranged.unknown,
      fun _ => id, fun _ inside _ => .inl inside⟩
    · intro hash _
      refine Or.imp id fun known => ?_
      exact (foldl_insert_mem bad Prod.snd queue.knownBad hash).mpr
        (.inl known)
    · exact fun hash draining => absurd draining (Finset.notMem_empty hash)
  unfold BlockQueue.doneDrain
  generalize queue.endDrain bad = start at started
  clear arranged
  induction bad generalizing start with
  | nil => exact started
  | cons entry rest induction =>
      exact induction _ ((started.takeAll entry.1).updateBad entry.2)

theorem clear (arranged : Arranged blocks queue) :
    Arranged blocks queue.clear := by
  apply arranged.fewer
  refine ⟨List.nil_sublist _, ?_, ?_, ?_, List.nil_sublist _, ?_, ?_, ?_⟩
  · exact fun hash ready => absurd ready (Finset.notMem_empty hash)
  · exact fun hash queued => absurd queued List.not_mem_nil
  · exact fun hash draining => absurd draining (Finset.notMem_empty hash)
  · intro hash
    constructor
    · exact fun waits => absurd waits (Finset.notMem_empty hash)
    · exact fun waits => absurd waits List.not_mem_nil
  · intro block inside
    exact .inr (inside.resolve_left List.not_mem_nil)
  · exact fun block inside => absurd inside List.not_mem_nil

end Arranged

/-! ## Blocks that become ready -/

theorem Placed.moves {joined : List UnverifiedBlock}
    (placed : Placed blocks queue)
    (moves : Moves joined queue queue') : Placed blocks queue' := by
  have hashes := moves.readyHashes
  have drainingSet : queue'.drainingSet = queue.drainingSet := by
    rw [moves.rest]
  have knownBad : queue'.knownBad = queue.knownBad := by rw [moves.rest]
  have working : queue'.working = queue.working := by rw [moves.rest]
  have verifying : queue'.verifying = queue.verifying := by rw [moves.rest]
  have nodup := moves.hashes.nodup_iff.mpr placed.unknownNodup
  obtain ⟨stayNodup, joinNodup, divided⟩ := List.nodup_append.mp nodup
  have stay : queue'.unknownHashes ⊆ queue.unknownHashes := fun _ inside =>
    moves.hashes.subset (List.mem_append_left _ inside)
  have join : ∀ hash ∈ joined.map fun block => block.hash,
      hash ∈ queue.unknownHashes := fun _ inside =>
    moves.hashes.subset (List.mem_append_right _ inside)
  refine ⟨?_, ?_, stayNodup, ?_, ?_, ?_, ?_, ?_, ?_⟩
  · rw [hashes, List.nodup_append]
    refine ⟨placed.nodup, joinNodup, ?_⟩
    intro hash queued other inside same
    rw [same] at queued
    exact (placed.waiting other (join other inside)).2.2 queued
  · intro hash queued
    rw [hashes, List.mem_append] at queued
    rw [moves.readySet, knownBad]
    rcases queued with old | new
    · exact (placed.known hash old).imp .inl id
    · exact .inl (.inr new)
  · intro hash
    rw [moves.unknownSet, placed.unknown]
    constructor
    · intro both
      have inside := moves.hashes.symm.subset both.1
      exact (List.mem_append.mp inside).resolve_right both.2
    · intro inside
      exact ⟨stay inside, fun joined => divided hash inside hash joined rfl⟩
  · intro hash inside
    obtain ⟨notReady, notDraining, notQueued⟩ :=
      placed.waiting hash (stay inside)
    have apart : hash ∉ joined.map fun block => block.hash :=
      fun joined => divided hash inside hash joined rfl
    rw [moves.readySet, drainingSet, hashes, List.mem_append]
    exact ⟨not_or.mpr ⟨notReady, apart⟩, notDraining,
      not_or.mpr ⟨notQueued, apart⟩⟩
  · intro hash draining
    rw [drainingSet] at draining
    obtain ⟨notReady, notQueued⟩ := placed.drained hash draining
    have apart : hash ∉ joined.map fun block => block.hash := fun joined =>
      (placed.waiting hash (join hash joined)).2.1 draining
    rw [moves.readySet, hashes, List.mem_append]
    exact ⟨not_or.mpr ⟨notReady, apart⟩, not_or.mpr ⟨notQueued, apart⟩⟩
  · intro block inside
    rw [moves.unverified, working, List.mem_append] at inside
    rcases inside with (old | new) | atWork
    · exact placed.carries block (.inl old)
    · exact placed.unknownCarries _ (moves.came new)
    · exact placed.carries block (.inr atWork)
  · intro entry inside
    exact placed.unknownCarries entry (moves.stayed inside)
  · rw [verifying]
    exact placed.finished

theorem Placed.joins {roots : List H256} {joined : List UnverifiedBlock}
    (placed : Placed blocks queue)
    (rooted : ∀ entry ∈ queue.unknown, entry.1 ∈ queue.readySet ∨
      entry.1 ∈ queue.drainingSet ∨ entry.1 ∈ queue.readyHashes →
        entry.1 ∈ roots)
    (joins : Joins roots joined queue queue') : Arranged blocks queue' := by
  refine ⟨placed.moves joins.toMoves, ?_⟩
  intro entry inside
  obtain ⟨notRoot, notJoined⟩ := joins.closed entry inside
  have apart : ¬ (entry.1 ∈ queue.readySet ∨ entry.1 ∈ queue.drainingSet ∨
      entry.1 ∈ queue.readyHashes) := fun come =>
    notRoot (rooted entry (joins.stayed inside) come)
  have drainingSet : queue'.drainingSet = queue.drainingSet := by
    rw [joins.rest]
  rw [joins.readySet, drainingSet, joins.readyHashes, List.mem_append]
  tauto

/-- A new block is enqueued. -/
theorem Arranged.enqueue (arranged : Arranged blocks queue) {block : Header}
    (known : blocks block) (new : New queue block.hash) {difficulty : U256} :
    Placed blocks
      { queue.enqueue ⟨block.hash, block.parentHash, some block⟩ with
        readySet := insert block.hash queue.readySet
        difficulty } := by
  have notQueued : block.hash ∉ queue.readyHashes := fun queued =>
    (arranged.known _ queued).elim new.ready new.bad
  have hashes : ∀ hash, hash ∈ readyHashes
      { queue.enqueue ⟨block.hash, block.parentHash, some block⟩ with
        readySet := insert block.hash queue.readySet
        difficulty } ↔ hash = block.hash ∨ hash ∈ queue.readyHashes := by
    intro hash
    simp only [readyHashes, BlockQueue.enqueue, List.map_append,
      List.map_cons, List.map_nil, List.mem_append, List.mem_singleton]
    tauto
  have ready : ∀ hash, hash ∈ insert block.hash queue.readySet ↔
      hash = block.hash ∨ hash ∈ queue.readySet := fun _ =>
    Finset.mem_insert
  refine ⟨?_, ?_, arranged.unknownNodup, arranged.unknown, ?_, ?_, ?_,
    arranged.unknownCarries, arranged.finished⟩
  · simp only [readyHashes, BlockQueue.enqueue, List.map_append,
      List.map_cons, List.map_nil]
    rw [← List.append_assoc, List.nodup_append]
    refine ⟨arranged.nodup, List.nodup_singleton _, ?_⟩
    intro hash member other single same
    rw [List.mem_singleton.mp single] at same
    rw [same] at member
    exact notQueued member
  · intro hash queued
    rw [hashes] at queued
    show hash ∈ insert block.hash queue.readySet ∨ _
    rw [ready]
    rcases queued with same | old
    · exact .inl (.inl same)
    · exact (arranged.known hash old).imp .inr id
  · intro hash waits
    obtain ⟨notReady, notDraining, notQueued⟩ := arranged.waiting hash waits
    have other : hash ≠ block.hash := by
      rintro rfl
      exact new.unknown ((arranged.unknown _).mpr waits)
    show hash ∉ insert block.hash queue.readySet ∧ _ ∧ _
    rw [ready, hashes]
    exact ⟨not_or.mpr ⟨other, notReady⟩, notDraining,
      not_or.mpr ⟨other, notQueued⟩⟩
  · intro hash draining
    obtain ⟨notReady, notQueued⟩ := arranged.drained hash draining
    have other : hash ≠ block.hash := by
      rintro rfl
      exact new.draining draining
    show hash ∉ insert block.hash queue.readySet ∧ _
    rw [ready, hashes]
    exact ⟨not_or.mpr ⟨other, notReady⟩, not_or.mpr ⟨other, notQueued⟩⟩
  · intro other inside
    simp only [BlockQueue.enqueue, List.mem_append, List.mem_singleton]
      at inside
    rcases inside with (old | same) | atWork
    · exact arranged.carries other (.inl old)
    · rw [same]
      exact ⟨block, rfl, known, rfl, rfl⟩
    · exact arranged.carries other (.inr atWork)

/-- What a block brings with it: itself, and all that hangs on it. -/
theorem success_joins (queue : BlockQueue) (block : Header)
    {difficulty : U256} :
    ∃ joined, Joins [block.hash] joined
      { queue.enqueue ⟨block.hash, block.parentHash, some block⟩ with
        readySet := insert block.hash queue.readySet
        difficulty }
      (noteReady block.hash
        { queue.enqueue ⟨block.hash, block.parentHash, some block⟩ with
          readySet := insert block.hash queue.readySet
          difficulty }) :=
  noteReady_joins _ _

namespace Arranged

theorem noteReady (arranged : Arranged blocks queue) (good : H256) :
    Arranged blocks (queue.noteReady good) := by
  obtain ⟨joined, joins⟩ := noteReady_joins good queue
  refine arranged.toPlaced.joins ?_ joins
  intro entry inside come
  obtain ⟨notReady, notDraining, notQueued⟩ := arranged.parents entry inside
  tauto

theorem retryLoop (placed : Placed blocks queue) (fuel : Nat)
    (enough : queue.unknown.length ≤ fuel) :
    Arranged blocks (BlockQueue.retryLoop fuel queue) := by
  induction fuel generalizing queue with
  | zero =>
      have none : queue.unknown = [] :=
        List.eq_nil_of_length_eq_zero (Nat.le_zero.mp enough)
      refine ⟨placed, fun entry inside => ?_⟩
      change entry ∈ queue.unknown at inside
      rw [none] at inside
      cases inside
  | succ fuel induction =>
      unfold BlockQueue.retryLoop
      split
      · rename_i none
        refine ⟨placed, fun entry inside => ?_⟩
        rw [none] at inside
        cases inside
      · rename_i parent _ rest listed
        have admits := admits parent queue
        refine induction (placed.moves admits.moves) ?_
        rw [admits.unknown, SizedBlockMap.eraseKey, listed,
          List.filter_cons_of_neg (by simp)]
        have fewer := List.length_filter_le
          (fun entry : H256 × H256 × BlockData => entry.1 ≠ parent) rest
        rw [listed, List.length_cons] at enough
        omega

theorem retryAllUnknown (arranged : Arranged blocks queue) :
    Arranged blocks queue.retryAllUnknown :=
  retryLoop arranged.toPlaced _ (Nat.le_refl _)

theorem success (arranged : Arranged blocks queue) {block : Header}
    (known : blocks block) (new : New queue block.hash) {difficulty : U256} :
    Arranged blocks (BlockQueue.noteReady block.hash
      { queue.enqueue ⟨block.hash, block.parentHash, some block⟩ with
        readySet := insert block.hash queue.readySet
        difficulty }) := by
  obtain ⟨joined, joins⟩ := @success_joins queue block difficulty
  refine (arranged.enqueue known new).joins ?_ joins
  intro entry inside come
  obtain ⟨notReady, notDraining, notQueued⟩ := arranged.parents entry inside
  have root : entry.1 = block.hash := by
    rcases come with ready | draining | queued
    · exact (Finset.mem_insert.mp ready).resolve_right notReady
    · exact absurd draining notDraining
    · simp only [readyHashes, BlockQueue.enqueue, List.map_append,
        List.map_cons, List.map_nil, List.mem_append,
        List.mem_singleton] at queued notQueued
      tauto
  rw [root]
  exact List.mem_singleton_self _

/-- A block waits for its parent. -/
theorem await (arranged : Arranged blocks queue) {block : Header}
    (known : blocks block) (new : New queue block.hash)
    (good : block.parentHash ∉ queue.knownBad)
    (absent : block.parentHash ∉ queue.readySet ∧
      block.parentHash ∉ queue.drainingSet)
    (less : H256 → H256 → Bool) {difficulty : U256} :
    Arranged blocks { queue with
      unknown := queue.unknown.insert less block.parentHash block.hash
        (some block)
      unknownSet := insert block.hash queue.unknownSet
      difficulty } := by
  have notQueued : ∀ {hash : H256}, hash ∉ queue.readySet →
      hash ∉ queue.knownBad → hash ∉ queue.readyHashes :=
    fun notReady notBad queued =>
      (arranged.known _ queued).elim notReady notBad
  have perm := SizedBlockMap.insert_perm less block.parentHash block.hash
    (some block) queue.unknown
  have hashes := perm.map fun entry => entry.2.1
  have fresh : block.hash ∉ queue.unknownHashes := fun waits =>
    new.unknown ((arranged.unknown _).mpr waits)
  refine ⟨⟨arranged.nodup, arranged.known, ?_, ?_, ?_, arranged.drained,
    arranged.carries, ?_, arranged.finished⟩, ?_⟩
  · exact hashes.nodup_iff.mpr
      (List.nodup_cons.mpr ⟨fresh, arranged.unknownNodup⟩)
  · intro hash
    refine Iff.trans ?_ hashes.mem_iff.symm
    rw [List.map_cons, List.mem_cons]
    show hash ∈ insert block.hash queue.unknownSet ↔ _
    rw [Finset.mem_insert, arranged.unknown]
    rfl
  · intro hash waits
    rcases List.mem_cons.mp (hashes.mem_iff.mp waits) with same | old
    · rw [same]
      exact ⟨new.ready, new.draining, notQueued new.ready new.bad⟩
    · exact arranged.waiting hash old
  · intro entry inside
    rcases List.mem_cons.mp (perm.mem_iff.mp inside) with same | old
    · rw [same]
      exact ⟨block, rfl, known, rfl, rfl⟩
    · exact arranged.unknownCarries entry old
  · intro entry inside
    rcases List.mem_cons.mp (perm.mem_iff.mp inside) with same | old
    · rw [same]
      exact ⟨absent.1, absent.2, notQueued absent.1 good⟩
    · exact arranged.parents entry old

/-! ## Calls and runs -/

theorem import_ (arranged : Arranged blocks queue) (call : Import)
    (known : blocks call.block) :
    Arranged blocks (queue.import_ call).2 := by
  have imports := imports_ queue call
  generalize queue.import_ call = outcome at imports
  cases imports with
  | refused => exact arranged
  | future =>
      exact ⟨⟨arranged.nodup, arranged.known, arranged.unknownNodup,
        arranged.unknown, arranged.waiting, arranged.drained, arranged.carries,
        arranged.unknownCarries, arranged.finished⟩, arranged.parents⟩
  | badChain new =>
      exact (arranged.setKnownBad (Finset.subset_insert _ _)).updateBad _
  | unknownParent new good parent =>
      have absent := of_decide_eq_true parent
      exact arranged.await known new good ⟨absent.1, absent.2.1⟩ _
  | success new => exact arranged.success known new

theorem initial : Arranged blocks {} := by
  refine ⟨⟨.nil, ?_, .nil, ?_, ?_, ?_, ?_, ?_, ?_⟩, ?_⟩
  · exact fun hash queued => absurd queued List.not_mem_nil
  · exact fun hash => ⟨nofun, nofun⟩
  · exact fun hash waits => absurd waits List.not_mem_nil
  · exact fun hash draining => absurd draining (Finset.notMem_empty hash)
  · exact fun block inside => inside.elim nofun nofun
  · exact fun entry inside => absurd inside List.not_mem_nil
  · exact fun block inside => absurd inside List.not_mem_nil
  · exact fun entry inside => absurd inside List.not_mem_nil

end Arranged

/-- The blocks that are imported in a run. -/
def Imported (steps : List Step) (block : Header) : Prop :=
  ∃ call, Step.import_ call ∈ steps ∧ call.block = block

theorem Arranged.step (arranged : Arranged blocks queue)
    (apart : UnclesOutside blocks) (step : Step)
    (known : ∀ call, step = .import_ call → blocks call.block) :
    Arranged blocks (queue.step step) := by
  cases step with
  | import_ call => exact arranged.import_ call (known call rfl)
  | tick utcTime =>
      exact ⟨⟨arranged.nodup, arranged.known, arranged.unknownNodup,
        arranged.unknown, arranged.waiting, arranged.drained, arranged.carries,
        arranged.unknownCarries, arranged.finished⟩, arranged.parents⟩
  | drain max => exact arranged.drain max
  | doneDrain bad => exact arranged.doneDrain bad
  | noteReady good => exact arranged.noteReady good
  | retryAllUnknown => exact arranged.retryAllUnknown
  | clear => exact arranged.clear
  | take placeholder => exact arranged.take placeholder
  | finish index success => exact arranged.finish apart index success

theorem Arranged.run (arranged : Arranged blocks queue)
    (apart : UnclesOutside blocks) {steps : List Step}
    (known : ∀ call, Step.import_ call ∈ steps → blocks call.block) :
    Arranged blocks (queue.run steps) := by
  induction steps generalizing queue with
  | nil => exact arranged
  | cons step rest induction =>
      refine induction (arranged.step apart step ?_) ?_
      · intro call same
        exact known call (by rw [same]; exact List.mem_cons_self)
      · intro call member
        exact known call (List.mem_cons_of_mem _ member)

/-- The sets are apart, the unknown set is exact, and nothing waits in
vain. -/
structure Separate (queue : BlockQueue) : Prop where
  readyDraining : Disjoint queue.readySet queue.drainingSet
  readyUnknown : Disjoint queue.readySet queue.unknownSet
  drainingUnknown : Disjoint queue.drainingSet queue.unknownSet
  once : queue.unknownHashes.Nodup
  exact_ : ∀ hash, hash ∈ queue.unknownSet ↔ hash ∈ queue.unknownHashes
  parents : ∀ entry ∈ queue.unknown,
    entry.1 ∉ queue.readySet ∧ entry.1 ∉ queue.drainingSet

theorem Arranged.separate (arranged : Arranged blocks queue) :
    Separate queue := by
  refine ⟨?_, ?_, ?_, arranged.unknownNodup, arranged.unknown, ?_⟩
  · rw [Finset.disjoint_left]
    intro hash ready draining
    exact (arranged.drained hash draining).1 ready
  · rw [Finset.disjoint_left]
    intro hash ready waits
    exact (arranged.waiting hash ((arranged.unknown hash).mp waits)).1 ready
  · rw [Finset.disjoint_left]
    intro hash draining waits
    exact (arranged.waiting hash ((arranged.unknown hash).mp waits)).2.1
      draining
  · intro entry inside
    obtain ⟨notReady, notDraining, -⟩ := arranged.parents entry inside
    exact ⟨notReady, notDraining⟩

/-- A block has come, and with it all that hangs on it, each behind its
parent. -/
structure Spreads (block : Header) (queue queue' : BlockQueue)
    (joined : List UnverifiedBlock) : Prop where
  unverified : queue'.unverified = queue.unverified ++
    ⟨block.hash, block.parentHash, some block⟩ :: joined
  readySet : ∀ hash, hash ∈ queue'.readySet ↔ hash ∈ queue.readySet ∨
    hash = block.hash ∨ Waits queue block.hash hash
  unknownSet : ∀ hash, hash ∈ queue'.unknownSet ↔ hash ∈ queue.unknownSet ∧
    ¬Waits queue block.hash hash
  everything : ∀ hash, hash ∈ joined.map (fun block => block.hash) ↔
    Waits queue block.hash hash
  once : (joined.map fun block => block.hash).Nodup
  parentsFirst : ParentsFirst [block.hash] joined

/-- An import that succeeds. -/
theorem import_success {call : Import}
    (success : (queue.import_ call).1 = .success) :
    New queue call.block.hash ∧ (queue.import_ call).2 =
      noteReady call.block.hash
        { queue.enqueue ⟨call.block.hash, call.block.parentHash,
            some call.block⟩ with
          readySet := insert call.block.hash queue.readySet
          difficulty := queue.difficulty + call.block.difficulty } := by
  unfold BlockQueue.import_ at success ⊢
  simp only at success ⊢
  split at success
  · cases success
  · rename_i absent
    simp only [not_or] at absent
    rw [if_neg (by simpa only [not_or] using absent)]
    split at success
    · cases success
    · rename_i wellFormed
      rw [if_neg wellFormed]
      split at success
      · cases success
      · rename_i notKnown
        rw [if_neg notKnown]
        split at success
        · split at success <;> cases success
        · rename_i now
          rw [if_neg now]
          split at success
          · cases success
          · rename_i good
            rw [if_neg good]
            split at success
            · cases success
            · rename_i parent
              rw [if_neg parent]
              exact ⟨⟨absent.1, absent.2.1, absent.2.2.1, absent.2.2.2⟩, rfl⟩

theorem Arranged.spreads (arranged : Arranged blocks queue) {call : Import}
    (success : (queue.import_ call).1 = .success) :
    ∃ joined, Spreads call.block queue (queue.import_ call).2 joined := by
  obtain ⟨new, outcome⟩ := import_success success
  obtain ⟨joined, joins⟩ := @success_joins queue call.block
    (queue.difficulty + call.block.difficulty)
  rw [← outcome] at joins
  have waits : ∀ hash, hash ∈ joined.map (fun block => block.hash) ↔
      Waits queue call.block.hash hash := by
    intro hash
    rw [joins.mem_iff]
    constructor
    · intro waiting
      induction waiting with
      | child member parent => exact .child member parent
      | further member _ induction => exact .further member induction
    · intro waiting
      induction waiting with
      | child member parent => exact .child member parent
      | further member _ induction => exact .further member induction
  have nodup := joins.hashes.nodup_iff.mpr arranged.unknownNodup
  refine ⟨joined, ?_, ?_, ?_, waits, ?_, joins.parentsFirst⟩
  · rw [joins.unverified]
    simp [BlockQueue.enqueue]
  · intro hash
    rw [joins.readySet, waits]
    show hash ∈ insert _ queue.readySet ∨ _ ↔ _
    rw [Finset.mem_insert]
    tauto
  · intro hash
    rw [joins.unknownSet, waits]
    exact Iff.rfl
  · exact (List.nodup_append.mp nodup).2.1

/-- In every run the three sets are apart, the unknown set is exact and no
block waits for one that has come; a block that comes brings all its
descendants with it, each behind its parent. -/
theorem run_separate (steps : List Step)
    (apart : UnclesOutside (Imported steps)) :
    Separate (BlockQueue.run {} steps) ∧ ∀ call : Import,
      ((BlockQueue.run {} steps).import_ call).1 = .success →
        ∃ joined, Spreads call.block (BlockQueue.run {} steps)
          ((BlockQueue.run {} steps).import_ call).2 joined := by
  have arranged : Arranged (Imported steps) (BlockQueue.run {} steps) :=
    Arranged.initial.run apart fun call member => ⟨call, member, rfl⟩
  exact ⟨arranged.separate, fun call => arranged.spreads⟩

/-- A chain of orphans whose first parent is missing, and a report that comes
after a `clear`. -/
def orphansSample : List Step :=
  [importSample 1 0, .take (hashOfNat 500), .clear, importSample 4 3,
    importSample 3 2, importSample 1 0, .finish 0 false]

/-- The missing block of the chain. -/
def missingSample : Import where
  block := headerSample 2 0
  isOurs := true
  isKnown := fun known => known = hashOfNat 0

theorem run_separate_sample :
    Separate (BlockQueue.run {} orphansSample) ∧
      ((BlockQueue.run {} orphansSample).import_ missingSample).1 =
        .success ∧
      ∃ joined, Spreads missingSample.block (BlockQueue.run {} orphansSample)
        ((BlockQueue.run {} orphansSample).import_ missingSample).2 joined := by
  have apart : UnclesOutside (Imported orphansSample) := by
    have blocks : ∀ block, Imported orphansSample block →
        block ∈ [headerSample 1 0, headerSample 4 3, headerSample 3 2] := by
      rintro block ⟨call, member, rfl⟩
      simp only [orphansSample, importSample, List.mem_cons,
        List.not_mem_nil, or_false, Step.import_.injEq, reduceCtorEq,
        false_or] at member
      rcases member with rfl | rfl | rfl | rfl <;> simp
    have pairs : ∀ first ∈ [headerSample 1 0, headerSample 4 3,
        headerSample 3 2], ∀ second ∈ [headerSample 1 0, headerSample 4 3,
        headerSample 3 2], first.sha3Uncles ≠ second.hash := by
      decide +kernel
    intro first second inside inside'
    exact pairs first (blocks first inside) second (blocks second inside')
  have success : ((BlockQueue.run {} orphansSample).import_
      missingSample).1 = .success := by
    decide +kernel
  obtain ⟨separate, spreads⟩ := run_separate orphansSample apart
  exact ⟨separate, success, spreads missingSample success⟩

end BlockQueue

end Aecmio
