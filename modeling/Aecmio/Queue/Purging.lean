import Aecmio.Queue.Ready

/-!
# Purging bad chains

Once a hash is marked as bad, every queued block that descends from a bad one
should go, and nothing else.  `Doomed` says which blocks these are.  The purge
removes them exactly when each of its removals takes the end of a queue.
-/

namespace Aecmio

namespace BlockQueue

variable {queue queue' : BlockQueue}

/-! ## Descendants -/

/-- The blocks that are to be verified or are being verified, each with its
parent. -/
def pipeline (queue : BlockQueue) : List (H256 × H256) :=
  queue.verifying.map (fun block => (block.slot, block.info.parentHash)) ++
    queue.unverified.map fun block => (block.hash, block.parentHash)

/-- All queued blocks, each with its parent. -/
def links (queue : BlockQueue) : List (H256 × H256) :=
  queue.verified.map (fun block =>
      (block.info.hash, block.info.parentHash)) ++
    queue.pipeline ++ queue.unknown.map fun entry => (entry.2.1, entry.1)

/-- A queued block that descends from a bad one. -/
inductive Doomed (queue : BlockQueue) : H256 → Prop
  | child {hash parent : H256} (link : (hash, parent) ∈ queue.links)
      (bad : parent ∈ queue.knownBad) : Doomed queue hash
  | descendant {hash parent : H256} (link : (hash, parent) ∈ queue.links)
      (doomed : Doomed queue parent) : Doomed queue hash

open Classical in
/-- The doomed blocks are gone and marked as bad, and all others are left
alone. -/
structure PurgesExactly (queue queue' : BlockQueue) : Prop where
  verified : queue'.verified = queue.verified.filter fun block =>
    ¬ Doomed queue block.info.hash
  pipeline : queue'.pipeline = queue.pipeline.filter fun link =>
    ¬ Doomed queue link.1
  unknown : queue'.unknown = queue.unknown.filter fun entry =>
    ¬ Doomed queue entry.2.1
  knownBad : ∀ hash, hash ∈ queue'.knownBad ↔
    hash ∈ queue.knownBad ∨ Doomed queue hash
  readySet : ∀ hash, hash ∈ queue'.readySet ↔
    hash ∈ queue.readySet ∧ ¬ Doomed queue hash
  unknownSet : ∀ hash, hash ∈ queue'.unknownSet ↔
    hash ∈ queue.unknownSet ∧ ¬ Doomed queue hash

theorem readyHashes_eq (queue : BlockQueue) :
    queue.readyHashes = queue.verified.map (fun block => block.info.hash) ++
      queue.pipeline.map Prod.fst := by
  simp [readyHashes, pipeline, Function.comp_def]

theorem mem_links {link : H256 × H256} (member : link ∈ queue.links) :
    link.1 ∈ queue.readyHashes ∨ link.1 ∈ queue.unknownHashes := by
  rw [readyHashes_eq, unknownHashes]
  simp only [links, List.mem_append, List.mem_map] at member ⊢
  rcases member with (⟨block, here, rfl⟩ | here) | ⟨entry, here, rfl⟩
  · exact .inl (.inl ⟨block, here, rfl⟩)
  · exact .inl (.inr ⟨link, here, rfl⟩)
  · exact .inr ⟨entry, here, rfl⟩

/-! ## What a part of the purge does -/

/-- Blocks that are now bad are gone; all of them descend from bad ones. -/
structure Shrinks (queue queue' : BlockQueue) : Prop where
  verified : queue'.verified = queue.verified.filter fun block =>
    block.info.hash ∉ queue'.knownBad
  pipeline : queue'.pipeline = queue.pipeline.filter fun link =>
    link.1 ∉ queue'.knownBad
  unknown : queue'.unknown = queue.unknown.filter fun entry =>
    entry.2.1 ∉ queue'.knownBad
  readySet : ∀ hash, hash ∈ queue'.readySet ↔
    hash ∈ queue.readySet ∧ hash ∉ queue'.knownBad
  unknownSet : ∀ hash, hash ∈ queue'.unknownSet ↔
    hash ∈ queue.unknownSet ∧ hash ∉ queue'.knownBad
  grows : queue.knownBad ⊆ queue'.knownBad
  finished : ∀ block ∈ queue'.verifying, block.blockData.isSome →
    block ∈ queue.verifying
  sound : ∀ bad : H256 → Prop,
    (∀ link ∈ queue.links, link.2 ∈ queue.knownBad → bad link.1) →
    (∀ link ∈ queue.links, bad link.2 → bad link.1) →
    ∀ hash ∈ queue'.knownBad, hash ∈ queue.knownBad ∨ bad hash

namespace Shrinks

theorem links_subset (shrinks : Shrinks queue queue') :
    ∀ link ∈ queue'.links, link ∈ queue.links := by
  intro link member
  simp only [links, List.mem_append, List.mem_map, shrinks.verified,
    shrinks.pipeline, shrinks.unknown, List.mem_filter] at member ⊢
  rcases member with (⟨block, ⟨here, -⟩, rfl⟩ | ⟨here, -⟩) |
    ⟨entry, ⟨here, -⟩, rfl⟩
  · exact .inl (.inl ⟨block, here, rfl⟩)
  · exact .inl (.inr here)
  · exact .inr ⟨entry, here, rfl⟩

theorem trans {queue'' : BlockQueue} (first : Shrinks queue queue')
    (second : Shrinks queue' queue'') : Shrinks queue queue'' := by
  have absorbs : ∀ hash, (hash ∉ queue''.knownBad ∧
      hash ∉ queue'.knownBad) ↔ hash ∉ queue''.knownBad := by
    intro hash
    refine ⟨And.left, fun good => ⟨good, ?_⟩⟩
    intro bad
    exact good (second.grows bad)
  refine ⟨?_, ?_, ?_, ?_, ?_, first.grows.trans second.grows, ?_, ?_⟩
  · rw [second.verified, first.verified, List.filter_filter]
    refine List.filter_congr fun block _ => ?_
    rw [← Bool.decide_and, decide_eq_decide]
    exact absorbs _
  · rw [second.pipeline, first.pipeline, List.filter_filter]
    refine List.filter_congr fun link _ => ?_
    rw [← Bool.decide_and, decide_eq_decide]
    exact absorbs _
  · rw [second.unknown, first.unknown, List.filter_filter]
    refine List.filter_congr fun entry _ => ?_
    rw [← Bool.decide_and, decide_eq_decide]
    exact absorbs _
  · intro hash
    rw [second.readySet, first.readySet, and_assoc,
      and_comm (b := hash ∉ queue''.knownBad), absorbs]
  · intro hash
    rw [second.unknownSet, first.unknownSet, and_assoc,
      and_comm (b := hash ∉ queue''.knownBad), absorbs]
  · intro block member finished
    exact first.finished block (second.finished block member finished)
      finished
  · intro bad children closed hash member
    have firstSound := first.sound bad children closed
    have later := second.sound bad
      (fun link inLinks parent =>
        (firstSound link.2 parent).elim
          (children link (first.links_subset link inLinks))
          (closed link (first.links_subset link inLinks)))
      (fun link inLinks => closed link (first.links_subset link inLinks))
      hash member
    exact later.elim (firstSound hash) .inr

/-- Only queued blocks become bad. -/
theorem queued (shrinks : Shrinks queue queue') {hash : H256}
    (bad : hash ∈ queue'.knownBad) : hash ∈ queue.knownBad ∨
      hash ∈ queue.readyHashes ∨ hash ∈ queue.unknownHashes :=
  shrinks.sound
    (fun hash => hash ∈ queue.readyHashes ∨ hash ∈ queue.unknownHashes)
    (fun _ member _ => mem_links member) (fun _ member _ => mem_links member)
    hash bad

end Shrinks

/-- No queued block is known to be bad. -/
def Unspoilt (queue : BlockQueue) : Prop :=
  ∀ hash ∈ queue.knownBad,
    hash ∉ queue.readyHashes ∧ hash ∉ queue.unknownHashes

theorem Shrinks.unspoilt (shrinks : Shrinks queue queue') :
    queue'.Unspoilt := by
  intro hash bad
  rw [readyHashes_eq, unknownHashes, shrinks.verified, shrinks.pipeline,
    shrinks.unknown]
  simp only [List.mem_append, List.mem_map, List.mem_filter,
    decide_eq_true_eq, not_or]
  refine ⟨⟨?_, ?_⟩, ?_⟩
  · intro found
    obtain ⟨block, ⟨-, good⟩, rfl⟩ := found
    exact good bad
  · intro found
    obtain ⟨link, ⟨-, good⟩, rfl⟩ := found
    exact good bad
  · intro found
    obtain ⟨entry, ⟨-, good⟩, rfl⟩ := found
    exact good bad

/-- What stays of a list is what is not among the hashes of the rest. -/
theorem filter_not_eq {Block : Type} {key : Block → H256}
    {pred : Block → Bool} {list : List Block} (nodup : (list.map key).Nodup) :
    (list.filter fun block => !pred block) = list.filter fun block =>
      key block ∉ (list.filter pred).map key := by
  refine List.filter_congr fun block member => ?_
  cases test : pred block with
  | true =>
      refine (decide_eq_false ?_).symm
      rw [not_not]
      exact List.mem_map_of_mem (List.mem_filter.mpr ⟨member, test⟩)
  | false =>
      refine (decide_eq_true ?_).symm
      intro found
      obtain ⟨other, selected, same⟩ := List.mem_map.mp found
      obtain ⟨otherMember, goes⟩ := List.mem_filter.mp selected
      rw [List.inj_on_of_nodup_map nodup otherMember member same, test]
        at goes
      cases goes

/-- Some blocks whose parents are bad go, and their hashes are marked. -/
theorem Shrinks.of_marks (coherent : Coherent queue)
    (unspoilt : queue.Unspoilt) {middle : BlockQueue}
    {marked roots : List H256} {keep : H256 × H256 × BlockData → Bool}
    (marks : Marks marked keep middle queue')
    (hangs : Hangs roots keep middle)
    (unknown : middle.unknown = queue.unknown)
    (unknownSet : middle.unknownSet = queue.unknownSet)
    (readySet : middle.readySet = queue.readySet)
    (knownBad : middle.knownBad = queue.knownBad)
    (verified : middle.verified = queue.verified.filter fun block =>
      block.info.hash ∉ marked)
    (pipeline : middle.pipeline = queue.pipeline.filter fun link =>
      link.1 ∉ marked)
    (verifying : ∀ block ∈ middle.verifying, block ∈ queue.verifying)
    (ready : ∀ hash ∈ marked, hash ∈ queue.readyHashes ∧
      ∃ parent ∈ queue.knownBad, (hash, parent) ∈ queue.links)
    (known : ∀ hash ∈ roots, hash ∈ marked ∨ hash ∈ queue.knownBad) :
    Shrinks queue queue' := by
  have removedUnknown : ∀ hash ∈ removedBy keep middle,
      hash ∈ queue.unknownHashes := by
    intro hash member
    rw [removedBy, unknown] at member
    exact (List.filter_sublist.map _).subset member
  have bad : ∀ hash, hash ∈ queue'.knownBad ↔ hash ∈ queue.knownBad ∨
      hash ∈ marked ∨ hash ∈ removedBy keep middle := by
    intro hash
    rw [marks.knownBad, knownBad]
  -- A ready hash is bad now exactly if it is marked.
  have badReady : ∀ hash ∈ queue.readyHashes,
      hash ∈ queue'.knownBad ↔ hash ∈ marked := by
    intro hash member
    rw [bad]
    constructor
    · intro cases_
      rcases cases_ with old | new | removed
      · exact absurd member (unspoilt hash old).1
      · exact new
      · exact absurd (removedUnknown hash removed)
          (coherent.apart hash member)
    · exact fun new => .inr (.inl new)
  have badUnknown : ∀ hash ∈ queue.unknownHashes,
      hash ∈ queue'.knownBad ↔ hash ∈ removedBy keep middle := by
    intro hash member
    rw [bad]
    constructor
    · intro cases_
      rcases cases_ with old | new | removed
      · exact absurd member (unspoilt hash old).2
      · exact absurd member (coherent.apart hash (ready hash new).1)
      · exact removed
    · exact fun removed => .inr (.inr removed)
  have inReady := readyHashes_eq queue
  refine ⟨?_, ?_, ?_, ?_, ?_, ?_, ?_, ?_⟩
  · rw [marks.verified, verified]
    refine List.filter_congr fun block member => ?_
    refine decide_eq_decide.mpr (not_congr (badReady _ ?_).symm)
    rw [inReady]
    exact List.mem_append_left _ (List.mem_map_of_mem member)
  · have same : queue'.pipeline = middle.pipeline := by
      rw [BlockQueue.pipeline, BlockQueue.pipeline, marks.verifying,
        marks.unverified]
    rw [same, pipeline]
    refine List.filter_congr fun link member => ?_
    refine decide_eq_decide.mpr (not_congr (badReady _ ?_).symm)
    rw [inReady]
    exact List.mem_append_right _ (List.mem_map_of_mem member)
  · have split : (queue.unknown.filter keep) = queue.unknown.filter
        fun entry => entry.2.1 ∉ removedBy keep middle := by
      have general := @filter_not_eq _
        (fun entry : H256 × H256 × BlockData => entry.2.1)
        (fun entry => !keep entry) queue.unknown coherent.unknownNodup
      simp only [Bool.not_not] at general
      rw [removedBy, unknown]
      exact general
    rw [marks.unknown, unknown, split]
    refine List.filter_congr fun entry member => ?_
    refine decide_eq_decide.mpr (not_congr (badUnknown _ ?_).symm)
    exact List.mem_map_of_mem member
  · intro hash
    rw [marks.readySet, readySet]
    refine and_congr_right fun member => not_congr ?_
    exact (badReady hash ((coherent.ready hash).mp member)).symm
  · intro hash
    rw [marks.unknownSet, unknownSet]
    refine and_congr_right fun member => not_congr ?_
    exact (badUnknown hash ((coherent.unknown hash).mp member)).symm
  · intro hash member
    exact (bad hash).mpr (.inl member)
  · intro block member _
    rw [marks.verifying] at member
    exact verifying block member
  · intro badHash children closed hash member
    rcases (bad hash).mp member with old | new | removed
    · exact .inl old
    · obtain ⟨-, parent, parentBad, link⟩ := ready hash new
      exact .inr (children (hash, parent) link parentBad)
    · refine hangs.sound (fun hash => hash ∈ queue.knownBad ∨ badHash hash)
        ?_ ?_ hash removed
      · intro root inRoots
        rcases known root inRoots with new | old
        · obtain ⟨-, parent, parentBad, link⟩ := ready root new
          exact .inr (children (root, parent) link parentBad)
        · exact .inl old
      · intro entry inUnknown parent
        rw [unknown] at inUnknown
        have link : (entry.2.1, entry.1) ∈ queue.links := by
          unfold links
          exact List.mem_append_right _
            (List.mem_map.mpr ⟨entry, inUnknown, rfl⟩)
        exact .inr (parent.elim (children _ link) (closed _ link))

/-- A queue in the middle of a purge: no queued block is bad, the unknown
blocks with bad parents hang on hashes that are still to be purged, and no
uncle hash of a finished block is the hash of another. -/
structure Clean (pending : List H256) (queue : BlockQueue) : Prop where
  coherent : Coherent queue
  unspoilt : queue.Unspoilt
  parents : ∀ entry ∈ queue.unknown, entry.1 ∈ queue.knownBad →
    entry.1 ∈ pending
  uncles : ∀ block ∈ queue.verifying, block.blockData.isSome →
    block.info.sha3Uncles ∉ queue.knownBad ∧
      block.info.sha3Uncles ∉ queue.readyHashes ∧
      block.info.sha3Uncles ∉ queue.unknownHashes

namespace Clean

variable {pending : List H256}

theorem shrinks {pending' : List H256} (clean : Clean pending queue)
    (shrinks : Shrinks queue queue') (coherent : Coherent queue')
    (parents : ∀ entry ∈ queue'.unknown, entry.1 ∈ queue'.knownBad →
      entry.1 ∈ pending') : Clean pending' queue' := by
  refine ⟨coherent, shrinks.unspoilt, parents, ?_⟩
  intro block member finished
  obtain ⟨notBad, notReady, notUnknown⟩ := clean.uncles block
    (shrinks.finished block member finished) finished
  refine ⟨?_, ?_, ?_⟩
  · intro bad
    rcases shrinks.queued bad with old | ready | unknown
    · exact notBad old
    · exact notReady ready
    · exact notUnknown unknown
  · intro ready
    rw [← coherent.ready, shrinks.readySet, clean.coherent.ready] at ready
    exact notReady ready.1
  · intro unknown
    rw [← coherent.unknown, shrinks.unknownSet, clean.coherent.unknown]
      at unknown
    exact notUnknown unknown.1

/-- The unknown blocks with bad parents, after some are marked. -/
theorem parents_marks (clean : Clean pending queue) {middle : BlockQueue}
    {marked roots : List H256} {keep : H256 × H256 × BlockData → Bool}
    (marks : Marks marked keep middle queue')
    (hangs : Hangs roots keep middle)
    (unknown : middle.unknown = queue.unknown)
    (knownBad : middle.knownBad = queue.knownBad)
    (covered : ∀ hash ∈ marked, hash ∈ roots) :
    ∀ entry ∈ queue'.unknown, entry.1 ∈ queue'.knownBad →
      entry.1 ∈ pending ∧ entry.1 ∉ roots := by
  intro entry member bad
  rw [marks.unknown] at member
  obtain ⟨inMiddle, kept⟩ := List.mem_filter.mp member
  obtain ⟨notRoot, notRemoved⟩ := hangs.complete entry inMiddle kept
  rcases (marks.knownBad _).mp bad with old | new | removed
  · rw [knownBad] at old
    rw [unknown] at inMiddle
    exact ⟨clean.parents entry inMiddle old, notRoot⟩
  · exact absurd (covered _ new) notRoot
  · exact absurd removed notRemoved

theorem collectUnknownBad (clean : Clean pending queue) {bad : H256}
    (known : bad ∈ queue.knownBad) :
    Shrinks queue (queue.collectUnknownBad bad) ∧
      Clean (pending.filter fun hash => hash ≠ bad)
        (queue.collectUnknownBad bad) := by
  obtain ⟨keep, marks, hangs⟩ := collectUnknownBad_marks queue bad
  have shrinks : Shrinks queue (queue.collectUnknownBad bad) := by
    refine .of_marks clean.coherent clean.unspoilt marks hangs rfl rfl rfl rfl
      ?_ ?_ (fun _ => id) nofun ?_
    · simp
    · simp
    · intro hash root
      rw [List.mem_singleton.mp root]
      exact .inr known
  refine ⟨shrinks, clean.shrinks shrinks
    (clean.coherent.collectUnknownBad bad) ?_⟩
  intro entry member entryBad
  obtain ⟨pends, notRoot⟩ :=
    clean.parents_marks marks hangs rfl rfl nofun entry member entryBad
  refine List.mem_filter.mpr ⟨pends, decide_eq_true ?_⟩
  intro same
  exact notRoot (List.mem_singleton.mpr same)

/-- Some blocks whose parents are bad go. -/
theorem marks (clean : Clean pending queue) {middle : BlockQueue}
    {marked : List H256} {keep : H256 × H256 × BlockData → Bool}
    (marks : Marks marked keep middle queue')
    (hangs : Hangs marked keep middle) (coherent : Coherent queue')
    (unknown : middle.unknown = queue.unknown)
    (unknownSet : middle.unknownSet = queue.unknownSet)
    (readySet : middle.readySet = queue.readySet)
    (knownBad : middle.knownBad = queue.knownBad)
    (verified : middle.verified = queue.verified.filter fun block =>
      block.info.hash ∉ marked)
    (pipeline : middle.pipeline = queue.pipeline.filter fun link =>
      link.1 ∉ marked)
    (verifying : ∀ block ∈ middle.verifying, block ∈ queue.verifying)
    (ready : ∀ hash ∈ marked, hash ∈ queue.readyHashes ∧
      ∃ parent ∈ queue.knownBad, (hash, parent) ∈ queue.links) :
    Shrinks queue queue' ∧ Clean pending queue' := by
  have shrinks : Shrinks queue queue' :=
    .of_marks clean.coherent clean.unspoilt marks hangs unknown unknownSet
      readySet knownBad verified pipeline verifying ready fun _ => .inl
  refine ⟨shrinks, clean.shrinks shrinks coherent ?_⟩
  intro entry member bad
  exact (clean.parents_marks marks hangs unknown knownBad (fun _ => id) entry
    member bad).1

theorem purgeVerified (clean : Clean pending queue)
    (trailing : Trailing queue.badVerified queue.verified) :
    Shrinks queue queue.purgeVerified ∧ Clean pending queue.purgeVerified := by
  have nodup := clean.coherent.nodup
  rw [readyHashes_eq, List.nodup_append] at nodup
  obtain ⟨keep, marks, hangs⟩ := markAll_marks
    ((queue.verified.filter queue.badVerified).map fun block =>
      block.info.hash)
    { queue with
      verified := queue.verified.filter fun block => !queue.badVerified block }
  have purged : queue.purgeVerified = ((queue.verified.filter
      queue.badVerified).map fun block => block.info.hash).foldl markBad
      { queue with verified :=
          queue.verified.filter fun block => !queue.badVerified block } := by
    rw [BlockQueue.purgeVerified, removeIf_of_trailing trailing]
  rw [← purged] at marks
  refine clean.marks marks hangs (clean.coherent.purgeVerified trailing) rfl
    rfl rfl rfl (filter_not_eq nodup.1) ?_ (fun _ => id) ?_
  · refine (List.filter_eq_self.mpr ?_).symm
    intro link member
    refine decide_eq_true ?_
    intro goes
    exact nodup.2.2 _ ((List.filter_sublist.map _).subset goes) _
      (List.mem_map_of_mem member) rfl
  · intro hash member
    obtain ⟨block, goes, rfl⟩ := List.mem_map.mp member
    obtain ⟨here, test⟩ := List.mem_filter.mp goes
    have ready : block.info.hash ∈ queue.readyHashes := by
      rw [readyHashes_eq]
      exact List.mem_append_left _ (List.mem_map_of_mem here)
    refine ⟨ready, block.info.parentHash,
      (of_decide_eq_true test).resolve_right ?_, ?_⟩
    · intro bad
      exact (clean.unspoilt _ bad).1 ready
    · unfold links
      exact List.mem_append_left _ (List.mem_append_left _
        (List.mem_map.mpr ⟨block, here, rfl⟩))

theorem mem_links_pipeline {link : H256 × H256}
    (member : link ∈ queue.pipeline) :
    link.1 ∈ queue.readyHashes ∧ link ∈ queue.links := by
  constructor
  · rw [readyHashes_eq]
    exact List.mem_append_right _ (List.mem_map_of_mem member)
  · unfold links
    exact List.mem_append_left _ (List.mem_append_right _ member)

theorem purgeUnverified (clean : Clean pending queue)
    (trailing : Trailing queue.badUnverified queue.unverified) :
    Shrinks queue queue.purgeUnverified ∧
      Clean pending queue.purgeUnverified := by
  have nodup := clean.coherent.nodup
  unfold readyHashes at nodup
  rw [List.nodup_append] at nodup
  obtain ⟨keep, marks, hangs⟩ := markAll_marks
    ((queue.unverified.filter queue.badUnverified).map fun block =>
      block.hash)
    { queue with unverified :=
        queue.unverified.filter fun block => !queue.badUnverified block }
  have purged : queue.purgeUnverified = ((queue.unverified.filter
      queue.badUnverified).map fun block => block.hash).foldl markBad
      { queue with unverified :=
          queue.unverified.filter fun block =>
            !queue.badUnverified block } := by
    rw [BlockQueue.purgeUnverified, removeIf_of_trailing trailing]
  rw [← purged] at marks
  have elsewhere : ∀ hash ∈ queue.verified.map (fun block =>
      block.info.hash) ++ queue.verifying.map VerifiedBlock.slot,
      hash ∉ (queue.unverified.filter queue.badUnverified).map
        fun block => block.hash := by
    intro hash member goes
    exact nodup.2.2 hash member hash
      ((List.filter_sublist.map _).subset goes) rfl
  refine clean.marks marks hangs (clean.coherent.purgeUnverified trailing) rfl
    rfl rfl rfl ?_ ?_ (fun _ => id) ?_
  · refine (List.filter_eq_self.mpr ?_).symm
    intro block member
    exact decide_eq_true (elsewhere _ (List.mem_append_left _
      (List.mem_map_of_mem member)))
  · unfold pipeline
    rw [List.filter_append, List.filter_map, List.filter_map]
    refine congrArg₂ _ ?_ ?_
    · refine congrArg _ (List.filter_eq_self.mpr ?_).symm
      intro block member
      exact decide_eq_true (elsewhere _ (List.mem_append_right _
        (List.mem_map_of_mem member)))
    · exact congrArg _ (filter_not_eq nodup.2.1)
  · intro hash member
    obtain ⟨block, goes, rfl⟩ := List.mem_map.mp member
    obtain ⟨here, test⟩ := List.mem_filter.mp goes
    have inPipeline : (block.hash, block.parentHash) ∈ queue.pipeline :=
      List.mem_append_right _ (List.mem_map.mpr ⟨block, here, rfl⟩)
    obtain ⟨ready, link⟩ := mem_links_pipeline inPipeline
    refine ⟨ready, block.parentHash,
      (of_decide_eq_true test).resolve_right ?_, link⟩
    intro bad
    exact (clean.unspoilt _ bad).1 ready

theorem purgeVerifying (clean : Clean pending queue)
    (trailing : Trailing queue.badVerifying queue.verifying) :
    Shrinks queue queue.purgeVerifying ∧
      Clean pending queue.purgeVerifying := by
  have nodup := clean.coherent.nodup
  unfold readyHashes at nodup
  rw [List.append_assoc, List.nodup_append, List.nodup_append] at nodup
  obtain ⟨-, ⟨nodupVerifying, -, apartUnverified⟩, apartVerified⟩ := nodup
  obtain ⟨keep, marks, hangs⟩ := markAll_marks
    ((queue.verifying.filter queue.badVerifying).map VerifiedBlock.slot)
    { queue with verifying :=
        queue.verifying.filter fun block => !queue.badVerifying block }
  have purged : queue.purgeVerifying = ((queue.verifying.filter
      queue.badVerifying).map VerifiedBlock.slot).foldl markBad
      { queue with verifying :=
          queue.verifying.filter fun block =>
            !queue.badVerifying block } := by
    rw [BlockQueue.purgeVerifying, removeIf_of_trailing trailing]
  rw [← purged] at marks
  refine clean.marks marks hangs (clean.coherent.purgeVerifying trailing) rfl
    rfl rfl rfl ?_ ?_ ?_ ?_
  · refine (List.filter_eq_self.mpr ?_).symm
    intro block member
    refine decide_eq_true ?_
    intro goes
    exact apartVerified _ (List.mem_map_of_mem member) _
      (List.mem_append_left _ ((List.filter_sublist.map _).subset goes)) rfl
  · unfold pipeline
    rw [List.filter_append, List.filter_map, List.filter_map]
    refine congrArg₂ _ ?_ ?_
    · exact congrArg _ (filter_not_eq nodupVerifying)
    · refine congrArg _ (List.filter_eq_self.mpr ?_).symm
      intro block member
      refine decide_eq_true ?_
      intro goes
      exact apartUnverified _ ((List.filter_sublist.map _).subset goes) _
        (List.mem_map_of_mem member) rfl
  · intro block member
    exact (List.mem_filter.mp member).1
  · intro hash member
    obtain ⟨block, goes, rfl⟩ := List.mem_map.mp member
    obtain ⟨here, test⟩ := List.mem_filter.mp goes
    have inPipeline : (block.slot, block.info.parentHash) ∈
        queue.pipeline :=
      List.mem_append_left _ (List.mem_map.mpr ⟨block, here, rfl⟩)
    obtain ⟨ready, link⟩ := mem_links_pipeline inPipeline
    refine ⟨ready, block.info.parentHash,
      (of_decide_eq_true test).resolve_right ?_, link⟩
    intro bad
    -- A bad uncle hash would be that of a finished block or a queued hash.
    by_cases finished : block.blockData.isSome
    · exact (clean.uncles block here finished).1 bad
    · refine (clean.unspoilt _ bad).1 ?_
      rw [VerifiedBlock.slot, if_neg finished] at ready
      exact ready

end Clean

/-! ## The loop of the purge -/

/-- No block in the three queues has a bad parent. -/
structure Settled (queue : BlockQueue) : Prop where
  verified : ∀ block ∈ queue.verified,
    block.info.parentHash ∉ queue.knownBad
  pipeline : ∀ link ∈ queue.pipeline, link.2 ∉ queue.knownBad

/-- A removal that leaves as many blocks as there were leaves the queue as it
was. -/
theorem filter_eq_self_of_length {Block : Type} {pred : Block → Bool}
    {list : List Block}
    (long : list.length ≤ (list.filter fun block => !pred block).length) :
    (list.filter fun block => !pred block) = list ∧
      ∀ block ∈ list, pred block = false := by
  have same := List.filter_sublist.eq_of_length_le long
  refine ⟨same, ?_⟩
  intro block member
  rw [← same] at member
  have stays := (List.mem_filter.mp member).2
  rwa [Bool.not_eq_true'] at stays

theorem removeIf_of_none {Block : Type} {moved : Block → Block}
    {pred : Block → Bool} {list : List Block}
    (none : (list.filter fun block => !pred block) = list) :
    removeIf moved pred list = (list, []) := by
  unfold removeIf
  simp only [none, List.drop_length, List.map_nil]

theorem purgeVerified_lists (queue : BlockQueue) :
    queue.purgeVerified.verified =
        queue.verified.filter (fun block => !queue.badVerified block) ∧
      queue.purgeVerified.verifying = queue.verifying ∧
      queue.purgeVerified.unverified = queue.unverified := by
  obtain ⟨keep, marks, -⟩ := markAll_marks _ _
  exact ⟨marks.verified, marks.verifying, marks.unverified⟩

theorem purgeUnverified_lists (queue : BlockQueue) :
    queue.purgeUnverified.verified = queue.verified ∧
      queue.purgeUnverified.verifying = queue.verifying ∧
      queue.purgeUnverified.unverified =
        queue.unverified.filter fun block => !queue.badUnverified block := by
  obtain ⟨keep, marks, -⟩ := markAll_marks _ _
  exact ⟨marks.verified, marks.verifying, marks.unverified⟩

theorem purgeVerifying_lists (queue : BlockQueue) :
    queue.purgeVerifying.verified = queue.verified ∧
      queue.purgeVerifying.verifying =
        queue.verifying.filter (fun block => !queue.badVerifying block) ∧
      queue.purgeVerifying.unverified = queue.unverified := by
  obtain ⟨keep, marks, -⟩ := markAll_marks _ _
  exact ⟨marks.verified, marks.verifying, marks.unverified⟩

/-- A round that removes nothing finds nothing. -/
theorem settled_of_round
    (same : queue.knownCount ≤ queue.purgeRound.knownCount) :
    queue.purgeRound = queue ∧ Settled queue := by
  obtain ⟨verified1, verifying1, unverified1⟩ := purgeVerified_lists queue
  obtain ⟨verified2, verifying2, unverified2⟩ :=
    purgeUnverified_lists queue.purgeVerified
  obtain ⟨verified3, verifying3, unverified3⟩ :=
    purgeVerifying_lists queue.purgeVerified.purgeUnverified
  have counts := same
  unfold purgeRound knownCount at counts
  rw [verified3, verified2, verified1, verifying3, unverified3,
    unverified2] at counts
  have bound1 := List.length_filter_le
    (fun block => !queue.badVerified block) queue.verified
  have bound2 := List.length_filter_le
    (fun block => !queue.purgeVerified.badUnverified block)
    queue.purgeVerified.unverified
  have bound3 := List.length_filter_le
    (fun block => !queue.purgeVerified.purgeUnverified.badVerifying block)
    queue.purgeVerified.purgeUnverified.verifying
  have length2 := congrArg List.length unverified1
  have length3 := congrArg List.length (verifying2.trans verifying1)
  obtain ⟨none1, good1⟩ := @filter_eq_self_of_length
    _ queue.badVerified queue.verified (by omega)
  have first : queue.purgeVerified = queue := by
    rw [BlockQueue.purgeVerified, removeIf_of_none none1]
    rfl
  rw [first] at counts bound2 bound3 length3
  obtain ⟨none2, good2⟩ := @filter_eq_self_of_length
    _ queue.badUnverified queue.unverified (by omega)
  have second : queue.purgeUnverified = queue := by
    rw [BlockQueue.purgeUnverified, removeIf_of_none none2]
    rfl
  rw [second] at counts bound3 length3
  obtain ⟨none3, good3⟩ := @filter_eq_self_of_length
    _ queue.badVerifying queue.verifying (by omega)
  have third : queue.purgeVerifying = queue := by
    rw [BlockQueue.purgeVerifying, removeIf_of_none none3]
    rfl
  refine ⟨by rw [purgeRound, first, second, third], ⟨?_, ?_⟩⟩
  · intro block member bad
    exact of_decide_eq_false (good1 block member) (.inl bad)
  · intro link member bad
    simp only [pipeline, List.mem_append, List.mem_map] at member
    rcases member with ⟨block, here, rfl⟩ | ⟨block, here, rfl⟩
    · exact of_decide_eq_false (good3 block here) (.inl bad)
    · exact of_decide_eq_false (good2 block here) (.inl bad)

namespace Clean

variable {pending : List H256}

theorem purgeRound (clean : Clean pending queue)
    (trails : queue.RoundTrails) :
    Shrinks queue queue.purgeRound ∧ Clean pending queue.purgeRound := by
  obtain ⟨shrinks1, clean1⟩ := clean.purgeVerified trails.verified
  obtain ⟨shrinks2, clean2⟩ := clean1.purgeUnverified trails.unverified
  obtain ⟨shrinks3, clean3⟩ := clean2.purgeVerifying trails.verifying
  exact ⟨(shrinks1.trans shrinks2).trans shrinks3, clean3⟩

theorem purgeLoop (clean : Clean pending queue) (fuel : Nat)
    (enough : queue.knownCount < fuel) (trails : LoopTrails fuel queue) :
    Shrinks queue (BlockQueue.purgeLoop fuel queue) ∧
      Clean pending (BlockQueue.purgeLoop fuel queue) ∧
      Settled (BlockQueue.purgeLoop fuel queue) := by
  induction fuel generalizing queue with
  | zero => omega
  | succ fuel induction =>
      obtain ⟨round, later⟩ := trails
      obtain ⟨shrinks, cleanRound⟩ := clean.purgeRound round
      unfold BlockQueue.purgeLoop
      split
      · rename_i more
        obtain ⟨shrinksRest, cleanRest, settled⟩ :=
          induction cleanRound (by omega) (later more)
        exact ⟨shrinks.trans shrinksRest, cleanRest, settled⟩
      · rename_i done
        obtain ⟨same, settled⟩ := settled_of_round (Nat.le_of_not_lt done)
        refine ⟨shrinks, cleanRound, ?_⟩
        rw [same]
        exact settled

theorem updateBad (clean : Clean pending queue) {bad : H256}
    (known : bad ∈ queue.knownBad) (trails : queue.PurgeTrails bad) :
    Shrinks queue (queue.updateBad bad) ∧
      Clean (pending.filter fun hash => hash ≠ bad) (queue.updateBad bad) ∧
      Settled (queue.updateBad bad) := by
  obtain ⟨shrinks, cleanCollected⟩ := clean.collectUnknownBad known
  have count : (queue.collectUnknownBad bad).knownCount =
      queue.knownCount := by
    obtain ⟨keep, marks, -⟩ := collectUnknownBad_marks queue bad
    rw [knownCount, knownCount, marks.verified, marks.verifying,
      marks.unverified]
  obtain ⟨shrinksLoop, cleanLoop, settled⟩ :=
    cleanCollected.purgeLoop _ (by rw [count]; exact Nat.lt_succ_self _)
      trails
  exact ⟨shrinks.trans shrinksLoop, cleanLoop, settled⟩

end Clean

/-! ## Whole purges -/

theorem take_same (queue : BlockQueue) (placeholder : H256) :
    (queue.take placeholder).verified = queue.verified ∧
      (queue.take placeholder).pipeline = queue.pipeline ∧
      (queue.take placeholder).unknown = queue.unknown ∧
      (queue.take placeholder).readySet = queue.readySet ∧
      (queue.take placeholder).unknownSet = queue.unknownSet ∧
      (queue.take placeholder).knownBad = queue.knownBad ∧
      ∀ block ∈ (queue.take placeholder).verifying, block.blockData.isSome →
        block ∈ queue.verifying := by
  cases waiting : queue.unverified with
  | nil =>
      have same : queue.take placeholder = queue := by
        rw [take, waiting]
      rw [same]
      exact ⟨rfl, rfl, rfl, rfl, rfl, rfl, fun _ member _ => member⟩
  | cons work rest =>
      simp only [take, waiting, true_and]
      constructor
      · simp [pipeline, waiting, VerifiedBlock.slot]
      · intro block member finished
        rcases List.mem_append.mp member with old | new
        · exact old
        · rw [List.mem_singleton.mp new] at finished
          cases finished

namespace Clean

variable {pending : List H256}

/-- Nothing is purged while the links and the sets stay. -/
theorem same (clean : Clean pending queue)
    (verified : queue'.verified = queue.verified)
    (pipeline : queue'.pipeline = queue.pipeline)
    (unknown : queue'.unknown = queue.unknown)
    (readySet : queue'.readySet = queue.readySet)
    (unknownSet : queue'.unknownSet = queue.unknownSet)
    (knownBad : queue'.knownBad = queue.knownBad)
    (finished : ∀ block ∈ queue'.verifying, block.blockData.isSome →
      block ∈ queue.verifying) : Shrinks queue queue' := by
  have goodReady : ∀ hash ∈ queue.readyHashes, hash ∉ queue.knownBad :=
    fun hash member bad => (clean.unspoilt hash bad).1 member
  have goodUnknown : ∀ hash ∈ queue.unknownHashes, hash ∉ queue.knownBad :=
    fun hash member bad => (clean.unspoilt hash bad).2 member
  refine ⟨?_, ?_, ?_, ?_, ?_, ?_, finished, ?_⟩
  · rw [verified, knownBad]
    refine (List.filter_eq_self.mpr fun block member => ?_).symm
    refine decide_eq_true (goodReady _ ?_)
    rw [readyHashes_eq]
    exact List.mem_append_left _ (List.mem_map_of_mem member)
  · rw [pipeline, knownBad]
    refine (List.filter_eq_self.mpr fun link member => ?_).symm
    exact decide_eq_true (goodReady _ (mem_links_pipeline member).1)
  · rw [unknown, knownBad]
    refine (List.filter_eq_self.mpr fun entry member => ?_).symm
    exact decide_eq_true (goodUnknown _ (List.mem_map_of_mem member))
  · intro hash
    rw [readySet, knownBad, clean.coherent.ready]
    exact ⟨fun member => ⟨member, goodReady hash member⟩, And.left⟩
  · intro hash
    rw [unknownSet, knownBad, clean.coherent.unknown]
    exact ⟨fun member => ⟨member, goodUnknown hash member⟩, And.left⟩
  · rw [knownBad]
  · intro bad _ _ hash member
    rw [knownBad] at member
    exact .inl member

theorem take (clean : Clean pending queue) (placeholder : H256) :
    Shrinks queue (queue.take placeholder) ∧
      Clean pending (queue.take placeholder) := by
  obtain ⟨verified, pipeline, unknown, readySet, unknownSet, knownBad,
    finished⟩ := take_same queue placeholder
  have shrinks := clean.same verified pipeline unknown readySet unknownSet
    knownBad finished
  refine ⟨shrinks, clean.shrinks shrinks (clean.coherent.take placeholder) ?_⟩
  rw [unknown, knownBad]
  exact clean.parents

theorem takeAll (clean : Clean pending queue) (placeholders : List H256) :
    Shrinks queue (placeholders.foldl
        (fun queue placeholder => queue.take placeholder) queue) ∧
      Clean pending (placeholders.foldl
        (fun queue placeholder => queue.take placeholder) queue) := by
  induction placeholders generalizing queue with
  | nil =>
      exact ⟨clean.same rfl rfl rfl rfl rfl rfl fun _ member _ => member,
        clean⟩
  | cons placeholder rest induction =>
      obtain ⟨shrinks, cleanTaken⟩ := clean.take placeholder
      obtain ⟨shrinksRest, cleanRest⟩ := induction cleanTaken
      exact ⟨shrinks.trans shrinksRest, cleanRest⟩

/-- All purges of a `doneDrain`. -/
theorem updateAll (bad : List (List H256 × H256))
    (clean : Clean pending queue)
    (known : ∀ entry ∈ bad, entry.2 ∈ queue.knownBad)
    (trails : DrainTrails bad queue) {last : BlockQueue}
    (updated : bad.foldl (fun queue entry =>
      (entry.1.foldl (fun queue placeholder => queue.take placeholder)
        queue).updateBad entry.2) queue = last) :
    Shrinks queue last ∧
      Clean (pending.filter fun hash => hash ∉ bad.map Prod.snd) last ∧
      (bad ≠ [] → Settled last) := by
  induction bad generalizing queue pending with
  | nil =>
      subst updated
      refine ⟨clean.same rfl rfl rfl rfl rfl rfl fun _ member _ => member, ?_,
        fun some_ => absurd rfl some_⟩
      simpa using clean
  | cons entry rest induction =>
      obtain ⟨trailsHere, trailsRest⟩ := trails
      obtain ⟨shrinksTaken, cleanTaken⟩ := clean.takeAll entry.1
      obtain ⟨shrinks, cleanPurged, settled⟩ := cleanTaken.updateBad
        (shrinksTaken.grows (known entry List.mem_cons_self)) trailsHere
      have before := shrinksTaken.trans shrinks
      obtain ⟨shrinksRest, cleanRest, settledRest⟩ := induction cleanPurged
        (fun later member => before.grows
          (known later (List.mem_cons_of_mem _ member))) trailsRest updated
      refine ⟨before.trans shrinksRest, ?_, fun _ => ?_⟩
      · rw [List.filter_filter] at cleanRest
        refine ⟨cleanRest.coherent, cleanRest.unspoilt, ?_, cleanRest.uncles⟩
        intro unknown member unknownBad
        have pends := cleanRest.parents unknown member unknownBad
        simp only [List.mem_filter, Bool.and_eq_true, decide_eq_true_eq,
          List.map_cons, List.mem_cons, not_or] at pends ⊢
        exact ⟨pends.1, pends.2.2, pends.2.1⟩
      · cases rest with
        | nil =>
            subst updated
            exact settled
        | cons => exact settledRest (List.cons_ne_nil _ _)

end Clean

/-- A purge that comes to an end has removed the doomed blocks. -/
theorem Shrinks.purgesExactly {start : BlockQueue}
    (shrinks : Shrinks start queue) (coherent : Coherent start)
    (unspoilt : start.Unspoilt) (clean : Clean [] queue)
    (settled : Settled queue) : PurgesExactly start queue := by
  have complete : ∀ hash, Doomed start hash → hash ∈ queue.knownBad := by
    -- A link with a bad parent that stays would be left in the queue.
    have step : ∀ hash parent, (hash, parent) ∈ start.links →
        parent ∈ queue.knownBad → hash ∈ queue.knownBad := by
      intro hash parent link bad
      by_contra good
      simp only [links, List.mem_append, List.mem_map] at link
      rcases link with (⟨block, here, same⟩ | here) | ⟨entry, here, same⟩
      · cases same
        refine settled.verified block ?_ bad
        rw [shrinks.verified]
        exact List.mem_filter.mpr ⟨here, decide_eq_true good⟩
      · refine settled.pipeline (hash, parent) ?_ bad
        rw [shrinks.pipeline]
        exact List.mem_filter.mpr ⟨here, decide_eq_true good⟩
      · cases same
        have stays : entry ∈ queue.unknown := by
          rw [shrinks.unknown]
          exact List.mem_filter.mpr ⟨here, decide_eq_true good⟩
        cases clean.parents entry stays bad
    intro hash doomed
    induction doomed with
    | child link bad => exact step _ _ link (shrinks.grows bad)
    | descendant link _ induction => exact step _ _ link induction
  have knownBad : ∀ hash, hash ∈ queue.knownBad ↔
      hash ∈ start.knownBad ∨ Doomed start hash := by
    intro hash
    constructor
    · exact shrinks.sound (Doomed start)
        (fun link member bad => .child member bad)
        (fun link member doomed => .descendant member doomed) hash
    · intro cases_
      exact cases_.elim (fun old => shrinks.grows old) (complete hash)
  have exactly : ∀ hash,
      hash ∈ start.readyHashes ∨ hash ∈ start.unknownHashes →
        (hash ∉ queue.knownBad ↔ ¬ Doomed start hash) := by
    intro hash queued
    refine not_congr ((knownBad hash).trans ⟨fun cases_ => ?_, .inr⟩)
    refine cases_.resolve_left fun old => ?_
    exact queued.elim (unspoilt hash old).1 (unspoilt hash old).2
  classical
  refine ⟨?_, ?_, ?_, knownBad, ?_, ?_⟩
  · rw [shrinks.verified]
    refine List.filter_congr fun block member => decide_eq_decide.mpr ?_
    refine exactly _ (.inl ?_)
    rw [readyHashes_eq]
    exact List.mem_append_left _ (List.mem_map_of_mem member)
  · rw [shrinks.pipeline]
    refine List.filter_congr fun link member => decide_eq_decide.mpr ?_
    exact exactly _ (.inl (Clean.mem_links_pipeline member).1)
  · rw [shrinks.unknown]
    refine List.filter_congr fun entry member => decide_eq_decide.mpr ?_
    exact exactly _ (.inr (List.mem_map_of_mem member))
  · intro hash
    rw [shrinks.readySet]
    refine and_congr_right fun member => exactly hash (.inl ?_)
    exact (coherent.ready hash).mp member
  · intro hash
    rw [shrinks.unknownSet]
    refine and_congr_right fun member => exactly hash (.inr ?_)
    exact (coherent.unknown hash).mp member

/-! ## Runs -/

/-- A queue between two steps: no queued block is bad, and no unknown block
has a parent that is bad or ready. -/
structure Tidy (queue : BlockQueue) : Prop where
  coherent : Coherent queue
  unspoilt : queue.Unspoilt
  parents : ∀ entry ∈ queue.unknown,
    entry.1 ∉ queue.knownBad ∧ entry.1 ∉ queue.readyHashes

/-- No finished block in `m_verifying` has an uncle hash that is bad or the
hash of a queued block. -/
def UnclesApart (queue : BlockQueue) : Prop :=
  ∀ block ∈ queue.verifying, block.blockData.isSome →
    block.info.sha3Uncles ∉ queue.knownBad ∧
      block.info.sha3Uncles ∉ queue.readySet ∧
      block.info.sha3Uncles ∉ queue.unknownSet

/-- A failed block is still in `m_verifying`, or nothing of it is queued. -/
structure Awaited (queue : BlockQueue) (work : UnverifiedBlock)
    (success : Bool) : Prop where
  uncles : ∀ block ∈ queue.verifying, block.blockData.isSome →
    block.info.sha3Uncles ≠ work.hash
  failed : success = false →
    (∃ block ∈ queue.verifying, block.info.sha3Uncles = work.hash) ∨
    (work.hash ∉ queue.readySet ∧ work.hash ∉ queue.unknownSet ∧
      ∀ entry ∈ queue.unknown, entry.1 ≠ work.hash)

theorem Awaited.expected {work : UnverifiedBlock} {success : Bool}
    (awaited : Awaited queue work success) : Expected queue work success := by
  refine ⟨awaited.uncles, fun failed ready => ?_⟩
  exact (awaited.failed failed).resolve_right fun absent => absent.1 ready

/-- The step lets purges work: reports are awaited, what is marked as bad is
not queued, and each removal takes the end of its queue. -/
def KeepsTidy (queue : BlockQueue) : Step → Prop
  | .import_ call => (queue.import_ call).1 = .badChain →
      UnclesApart
        { queue with knownBad := insert call.block.hash queue.knownBad } ∧
      PurgeTrails
        { queue with knownBad := insert call.block.hash queue.knownBad }
        call.block.hash
  | .doneDrain bad =>
      (∀ entry ∈ bad, entry.2 ∉ queue.readySet ∧
        entry.2 ∉ queue.unknownSet) ∧
      UnclesApart (queue.endDrain bad) ∧ DrainTrails bad (queue.endDrain bad)
  | .finish index success => ∀ work, queue.working[index]? = some work →
      Awaited queue work success
  | _ => True

namespace Tidy

/-- Hashes that are not queued are marked. -/
theorem mark (tidy : Tidy queue) {start : BlockQueue} {marked : List H256}
    (coherent : Coherent start)
    (knownBad : ∀ hash, hash ∈ start.knownBad ↔
      hash ∈ queue.knownBad ∨ hash ∈ marked)
    (ready : start.readyHashes = queue.readyHashes)
    (unknown : start.unknown = queue.unknown)
    (absent : ∀ hash ∈ marked, hash ∉ queue.readySet ∧
      hash ∉ queue.unknownSet)
    (uncles : UnclesApart start) : Clean marked start := by
  have unknownHashes' : start.unknownHashes = queue.unknownHashes := by
    rw [unknownHashes, unknownHashes, unknown]
  refine ⟨coherent, ?_, ?_, ?_⟩
  · intro hash bad
    rw [ready, unknownHashes']
    rcases (knownBad hash).mp bad with old | new
    · exact tidy.unspoilt hash old
    · rw [← tidy.coherent.ready, ← tidy.coherent.unknown]
      exact absent hash new
  · intro entry member bad
    rw [unknown] at member
    exact ((knownBad _).mp bad).resolve_left (tidy.parents entry member).1
  · intro block member finished
    rw [← coherent.ready, ← coherent.unknown]
    exact uncles block member finished

/-- The blocks that stay after a purge. -/
theorem of_clean {start : BlockQueue} (shrinks : Shrinks start queue)
    (clean : Clean [] queue)
    (parents : ∀ entry ∈ start.unknown, entry.1 ∉ start.readyHashes)
    (coherent : Coherent start) : Tidy queue := by
  refine ⟨clean.coherent, clean.unspoilt, ?_⟩
  intro entry member
  constructor
  · intro bad
    cases clean.parents entry member bad
  · rw [shrinks.unknown] at member
    intro ready
    rw [← clean.coherent.ready, shrinks.readySet, coherent.ready] at ready
    exact parents entry (List.mem_filter.mp member).1 ready.1

theorem badChain (tidy : Tidy queue) {call : Import}
    (new : New queue call.block.hash)
    (uncles : UnclesApart
      { queue with knownBad := insert call.block.hash queue.knownBad })
    (trails : PurgeTrails
      { queue with knownBad := insert call.block.hash queue.knownBad }
      call.block.hash) :
    PurgesExactly
        { queue with knownBad := insert call.block.hash queue.knownBad }
        (updateBad
          { queue with knownBad := insert call.block.hash queue.knownBad }
          call.block.hash) ∧
      Tidy (updateBad
        { queue with knownBad := insert call.block.hash queue.knownBad }
        call.block.hash) := by
  have coherent := tidy.coherent.setKnownBad
    (insert call.block.hash queue.knownBad)
  have clean := @mark _ tidy _ [call.block.hash] coherent (by
      intro hash
      show hash ∈ insert _ _ ↔ _
      rw [Finset.mem_insert, List.mem_singleton, or_comm]) rfl rfl (by
      intro hash member
      rw [List.mem_singleton.mp member]
      exact ⟨new.ready, new.unknown⟩) uncles
  obtain ⟨shrinks, cleanLast, settled⟩ :=
    clean.updateBad (Finset.mem_insert_self _ _) trails
  have nothing : ([call.block.hash].filter fun hash =>
      hash ≠ call.block.hash) = [] := by simp
  rw [nothing] at cleanLast
  exact ⟨shrinks.purgesExactly coherent clean.unspoilt cleanLast settled,
    of_clean shrinks cleanLast
      (fun entry member => (tidy.parents entry member).2) coherent⟩

theorem doneDrain (tidy : Tidy queue) {bad : List (List H256 × H256)}
    (absent : ∀ entry ∈ bad, entry.2 ∉ queue.readySet ∧
      entry.2 ∉ queue.unknownSet)
    (uncles : UnclesApart (queue.endDrain bad))
    (trails : DrainTrails bad (queue.endDrain bad)) :
    (bad ≠ [] → PurgesExactly (queue.endDrain bad) (queue.doneDrain bad)) ∧
      Tidy (queue.doneDrain bad) := by
  have before := tidy.coherent
  have coherent : Coherent (queue.endDrain bad) :=
    ⟨before.nodup, before.ready, before.unknownNodup, before.unknown,
      before.apart, before.carries, before.unknownCarries⟩
  have clean := @mark _ tidy _ (bad.map Prod.snd) coherent (by
      intro hash
      exact foldl_insert_mem bad Prod.snd queue.knownBad hash) rfl rfl (by
      intro hash member
      obtain ⟨entry, inBad, rfl⟩ := List.mem_map.mp member
      exact absent entry inBad) uncles
  obtain ⟨shrinks, cleanLast, settled⟩ := clean.updateAll bad (by
      intro entry member
      exact (foldl_insert_mem bad Prod.snd queue.knownBad _).mpr
        (.inr (List.mem_map_of_mem member))) trails rfl
  have nothing : ((bad.map Prod.snd).filter fun hash =>
      hash ∉ bad.map Prod.snd) = [] := by
    rw [List.filter_eq_nil_iff]
    intro hash member
    simpa using List.mem_map.mp member
  rw [nothing] at cleanLast
  exact ⟨fun some_ => shrinks.purgesExactly coherent clean.unspoilt cleanLast
      (settled some_),
    of_clean shrinks cleanLast
      (fun entry member => (tidy.parents entry member).2) coherent⟩

end Tidy

/-- A queue whose ready blocks may still have unknown children. -/
structure Readying (goodQueue : List H256) (queue : BlockQueue) : Prop where
  coherent : Coherent queue
  unspoilt : queue.Unspoilt
  parents : ∀ entry ∈ queue.unknown, entry.1 ∉ queue.knownBad ∧
    (entry.1 ∈ queue.readyHashes → entry.1 ∈ goodQueue)

theorem Unspoilt.admits {parent : H256} (unspoilt : queue.Unspoilt)
    (admits : Admits parent queue queue') : queue'.Unspoilt := by
  intro hash bad
  rw [admits.knownBad] at bad
  obtain ⟨notReady, notUnknown⟩ := unspoilt hash bad
  constructor
  · rw [admits.readyHashes, List.mem_append, not_or]
    exact ⟨notReady, fun child => notUnknown (children_unknown child)⟩
  · intro member
    rw [unknownHashes, admits.unknown] at member
    exact notUnknown ((List.filter_sublist.map _).subset member)

namespace Readying

variable {goodQueue : List H256}

theorem tidy (readying : Readying [] queue) : Tidy queue := by
  refine ⟨readying.coherent, readying.unspoilt, ?_⟩
  intro entry member
  obtain ⟨good, ready⟩ := readying.parents entry member
  exact ⟨good, fun isReady => by cases ready isReady⟩

theorem round {parent : H256} (readying : Readying (parent :: goodQueue) queue)
    (admits : Admits parent queue queue') :
    Readying (goodQueue ++ (queue.children parent).map fun block =>
      block.hash) queue' := by
  refine ⟨readying.coherent.admits admits, readying.unspoilt.admits admits, ?_⟩
  intro entry member
  rw [admits.unknown] at member
  obtain ⟨before, key⟩ := List.mem_filter.mp member
  obtain ⟨good, ready⟩ := readying.parents entry before
  rw [admits.knownBad, admits.readyHashes]
  refine ⟨good, fun isReady => ?_⟩
  rcases List.mem_append.mp isReady with old | child
  · refine List.mem_append_left _ ?_
    exact (List.mem_cons.mp (ready old)).resolve_left (of_decide_eq_true key)
  · exact List.mem_append_right _ child

theorem readyLoop (fuel : Nat) (goodQueue : List H256)
    (readying : Readying goodQueue queue)
    (enough : queue.unknown.length + goodQueue.length ≤ fuel) :
    Tidy (BlockQueue.readyLoop fuel goodQueue queue) := by
  induction fuel generalizing goodQueue queue with
  | zero =>
      have nothing : goodQueue = [] := by
        apply List.eq_nil_of_length_eq_zero
        omega
      rw [nothing] at readying
      exact readying.tidy
  | succ fuel induction =>
      cases goodQueue with
      | nil => exact readying.tidy
      | cons parent goodQueue =>
          have admits := BlockQueue.admits parent queue
          have next := readying.round admits
          have children : (queue.unknown.byKeyEqual parent).map Prod.fst =
              (queue.children parent).map fun block => block.hash := by
            simp [BlockQueue.children]
          unfold BlockQueue.readyLoop
          simp only
          rw [children]
          refine induction _ next ?_
          have split : queue.unknown.length =
              (queue.unknown.eraseKey parent).length +
                (queue.children parent).length := by
            rw [BlockQueue.children, SizedBlockMap.byKeyEqual,
              List.length_map, List.length_map, SizedBlockMap.eraseKey]
            have general := @List.length_eq_length_filter_add _ queue.unknown
              (fun entry => decide (entry.1 ≠ parent))
            simpa using general
          rw [admits.unknown, List.length_append, List.length_map]
          rw [List.length_cons] at enough
          omega

end Readying

namespace Tidy

theorem noteReady (tidy : Tidy queue) (good : H256) :
    Tidy (queue.noteReady good) := by
  refine Readying.readyLoop _ [good] ⟨tidy.coherent, tidy.unspoilt, ?_⟩
    (Nat.le_refl _)
  intro entry member
  obtain ⟨notBad, notReady⟩ := tidy.parents entry member
  exact ⟨notBad, fun ready => absurd ready notReady⟩

theorem retryAllUnknown (tidy : Tidy queue) : Tidy queue.retryAllUnknown := by
  have loop : ∀ (fuel : Nat) (queue : BlockQueue), Coherent queue →
      queue.Unspoilt → queue.unknown.length ≤ fuel →
      (retryLoop fuel queue).Unspoilt ∧
        (retryLoop fuel queue).unknown = [] := by
    intro fuel
    induction fuel with
    | zero =>
        intro queue _ unspoilt short
        refine ⟨unspoilt, List.eq_nil_of_length_eq_zero ?_⟩
        exact Nat.le_zero.mp short
    | succ fuel induction =>
        intro queue coherent unspoilt short
        unfold retryLoop
        split
        · rename_i none
          exact ⟨unspoilt, none⟩
        · rename_i parent _ rest listed
          have admits := admits parent queue
          refine induction _ (coherent.admits admits)
            (unspoilt.admits admits) ?_
          rw [admits.unknown, SizedBlockMap.eraseKey, listed,
            List.filter_cons_of_neg (by simp)]
          have fewer := List.length_filter_le
            (fun entry : H256 × H256 × BlockData => entry.1 ≠ parent) rest
          rw [listed, List.length_cons] at short
          omega
  obtain ⟨unspoilt, none⟩ := loop _ queue tidy.coherent tidy.unspoilt
    (Nat.le_refl _)
  refine ⟨tidy.coherent.retryAllUnknown, unspoilt, ?_⟩
  intro entry member
  rw [BlockQueue.retryAllUnknown, none] at member
  cases member

/-- A new block is enqueued, with the blocks that wait for it. -/
theorem success (tidy : Tidy queue) {block : Header}
    (new : New queue block.hash) {difficulty : U256} :
    Tidy (BlockQueue.noteReady block.hash
      { queue.enqueue ⟨block.hash, block.parentHash, some block⟩ with
        readySet := insert block.hash queue.readySet
        difficulty }) := by
  have hashes : ∀ hash, hash ∈ readyHashes
      { queue.enqueue ⟨block.hash, block.parentHash, some block⟩ with
        readySet := insert block.hash queue.readySet
        difficulty } ↔ hash ∈ queue.readyHashes ∨ hash = block.hash := by
    intro hash
    simp only [readyHashes, enqueue, List.map_append, List.map_cons,
      List.map_nil, List.mem_append, List.mem_singleton]
    tauto
  refine Readying.readyLoop _ [block.hash]
    ⟨tidy.coherent.enqueue new.ready new.unknown, ?_, ?_⟩ (Nat.le_refl _)
  · intro hash bad
    obtain ⟨notReady, notUnknown⟩ := tidy.unspoilt hash bad
    refine ⟨?_, notUnknown⟩
    rw [hashes, not_or]
    refine ⟨notReady, ?_⟩
    intro same
    rw [same] at bad
    exact new.bad bad
  · intro entry member
    obtain ⟨notBad, notReady⟩ := tidy.parents entry member
    refine ⟨notBad, fun ready => ?_⟩
    rw [hashes] at ready
    exact List.mem_singleton.mpr (ready.resolve_left notReady)

/-- A block waits for its parent. -/
theorem await (tidy : Tidy queue) {block : Header}
    (new : New queue block.hash) (good : block.parentHash ∉ queue.knownBad)
    (notReady : block.parentHash ∉ queue.readySet)
    (less : H256 → H256 → Bool) {difficulty : U256} :
    Tidy { queue with
      unknown := queue.unknown.insert less block.parentHash block.hash
        (some block)
      unknownSet := insert block.hash queue.unknownSet
      difficulty } := by
  have perm := SizedBlockMap.insert_perm less block.parentHash block.hash
    (some block) queue.unknown
  refine ⟨tidy.coherent.await new.ready new.unknown less, ?_, ?_⟩
  · intro hash bad
    obtain ⟨away, awayUnknown⟩ := tidy.unspoilt hash bad
    refine ⟨away, ?_⟩
    intro member
    have cases_ := (perm.map fun entry => entry.2.1).mem_iff.mp member
    rcases List.mem_cons.mp cases_ with same | old
    · rw [same] at bad
      exact new.bad bad
    · exact awayUnknown old
  · intro entry member
    rcases List.mem_cons.mp (perm.mem_iff.mp member) with same | old
    · rw [same]
      exact ⟨good, fun ready => notReady ((tidy.coherent.ready _).mpr ready)⟩
    · exact tidy.parents entry old

theorem import_ (tidy : Tidy queue) (call : Import)
    (keeps : queue.KeepsTidy (.import_ call)) :
    Tidy (queue.import_ call).2 := by
  have imports := imports_ queue call
  have purges : (queue.import_ call).1 = .badChain → _ := keeps
  generalize queue.import_ call = outcome at imports purges
  cases imports with
  | refused => exact tidy
  | future =>
      have before := tidy.coherent
      exact ⟨⟨before.nodup, before.ready, before.unknownNodup, before.unknown,
        before.apart, before.carries, before.unknownCarries⟩, tidy.unspoilt,
        tidy.parents⟩
  | badChain new =>
      obtain ⟨uncles, trails⟩ := purges rfl
      exact (tidy.badChain new uncles trails).2
  | unknownParent new good parent =>
      refine tidy.await new good ?_ _
      exact (of_decide_eq_true parent).1
  | success new => exact tidy.success new

/-- Blocks leave the three queues; a hash that becomes bad is not queued
any more. -/
theorem shrink (tidy : Tidy queue) (coherent : Coherent queue')
    (unknown : queue'.unknown = queue.unknown)
    (ready : ∀ hash ∈ queue'.readyHashes, hash ∈ queue.readyHashes)
    (bad : ∀ hash ∈ queue'.knownBad, hash ∈ queue.knownBad ∨
      (hash ∉ queue'.readyHashes ∧ hash ∉ queue.unknownHashes ∧
        ∀ entry ∈ queue.unknown, entry.1 ≠ hash)) : Tidy queue' := by
  have sameHashes : queue'.unknownHashes = queue.unknownHashes := by
    rw [unknownHashes, unknownHashes, unknown]
  refine ⟨coherent, ?_, ?_⟩
  · intro hash isBad
    rw [sameHashes]
    rcases bad hash isBad with old | ⟨notReady, notUnknown, -⟩
    · obtain ⟨notReady, notUnknown⟩ := tidy.unspoilt hash old
      exact ⟨fun member => notReady (ready hash member), notUnknown⟩
    · exact ⟨notReady, notUnknown⟩
  · intro entry member
    rw [unknown] at member
    obtain ⟨notBad, notReady⟩ := tidy.parents entry member
    refine ⟨?_, fun isReady => notReady (ready _ isReady)⟩
    intro isBad
    rcases bad _ isBad with old | ⟨-, -, other⟩
    · exact notBad old
    · exact other entry member rfl

/-- A ready hash that leaves becomes bad. -/
theorem bad_of_ready (tidy : Tidy queue) {hash : H256}
    (ready : hash ∈ queue.readyHashes) : hash ∉ queue.unknownHashes ∧
      ∀ entry ∈ queue.unknown, entry.1 ≠ hash := by
  refine ⟨tidy.coherent.apart hash ready, ?_⟩
  intro entry member same
  refine (tidy.parents entry member).2 ?_
  rw [same]
  exact ready

theorem drain (tidy : Tidy queue) (max : Nat) : Tidy (queue.drain max).2 := by
  have coherent := tidy.coherent.drain max
  refine tidy.shrink coherent ?_ ?_ ?_
  · unfold BlockQueue.drain
    split <;> rfl
  · intro hash member
    rw [← tidy.coherent.ready]
    rw [← coherent.ready] at member
    unfold BlockQueue.drain at member
    split at member
    · exact ((foldl_erase_mem _ (fun block : VerifiedBlock =>
        block.info.hash) _ hash).mp member).1
    · exact member
  · intro hash bad
    refine .inl ?_
    unfold BlockQueue.drain at bad
    split at bad <;> exact bad

theorem take (tidy : Tidy queue) (placeholder : H256) :
    Tidy (queue.take placeholder) := by
  obtain ⟨verified, pipeline, unknown, -, -, knownBad, -⟩ :=
    take_same queue placeholder
  refine tidy.shrink (tidy.coherent.take placeholder) unknown ?_ ?_
  · intro hash member
    rw [readyHashes_eq, verified, pipeline] at member
    rw [readyHashes_eq]
    exact member
  · intro hash bad
    rw [knownBad] at bad
    exact .inl bad

theorem judge {block : VerifiedBlock} {rest : List VerifiedBlock}
    (tidy : Tidy { queue with verifying := block :: rest })
    (finished : block.blockData.isSome) :
    Tidy { queue.judge block with verifying := rest } := by
  have coherent := tidy.coherent.judge finished
  have slot : block.slot = block.info.hash := if_pos finished
  have wasReady : block.info.hash ∈
      readyHashes { queue with verifying := block :: rest } := by
    simp [readyHashes, slot]
  have fewer : ∀ hash ∈ readyHashes
      { queue.judge block with verifying := rest },
      hash ∈ readyHashes { queue with verifying := block :: rest } := by
    intro hash member
    by_cases bad : block.info.parentHash ∈ queue.knownBad
    · rw [judge_bad bad] at member
      simp only [readyHashes, List.map_cons, List.mem_append, List.mem_cons]
        at member ⊢
      tauto
    · rw [judge_good bad] at member
      simp only [readyHashes, List.map_append, List.map_cons, List.map_nil,
        List.mem_append, List.mem_cons, List.not_mem_nil, or_false, slot]
        at member ⊢
      tauto
  refine tidy.shrink coherent ?_ fewer ?_
  · by_cases bad : block.info.parentHash ∈ queue.knownBad
    · rw [judge_bad bad]
    · rw [judge_good bad]
  · intro hash isBad
    by_cases bad : block.info.parentHash ∈ queue.knownBad
    · have ready := coherent.ready hash
      rw [judge_bad bad] at isBad ready
      rcases Finset.mem_insert.mp isBad with same | old
      · refine .inr ⟨?_, ?_⟩
        · rw [judge_bad bad, ← ready, same]
          exact Finset.notMem_erase _ _
        · rw [same]
          exact tidy.bad_of_ready wasReady
      · exact .inl old
    · rw [judge_good bad] at isBad
      exact .inl isBad

theorem drainLoop {verifying : List VerifiedBlock}
    (tidy : Tidy { queue with verifying }) :
    Tidy (queue.drainLoop verifying) := by
  induction verifying generalizing queue with
  | nil => exact tidy
  | cons block rest induction =>
      unfold BlockQueue.drainLoop
      split
      · rename_i finished
        exact induction (tidy.judge finished)
      · exact tidy

/-- Only the hashes of `m_verifying` matter. -/
theorem setVerifying (tidy : Tidy queue) {verifying : List VerifiedBlock}
    (slots : verifying.map VerifiedBlock.slot =
      queue.verifying.map VerifiedBlock.slot) :
    Tidy { queue with verifying } := by
  refine tidy.shrink (tidy.coherent.setVerifying slots) rfl ?_ fun _ => .inl
  intro hash member
  unfold readyHashes at member ⊢
  rwa [slots] at member

theorem setWorking (tidy : Tidy queue) {working : List UnverifiedBlock}
    {history : History} (fewer : ∀ block ∈ working, block ∈ queue.working) :
    Tidy { queue with working, history } :=
  tidy.shrink (tidy.coherent.setWorking fewer) rfl (fun _ => id) fun _ => .inl

theorem reportBad (tidy : Tidy queue) {work : UnverifiedBlock}
    (awaited : Awaited queue work false) : Tidy (queue.reportBad work) := by
  have expected := awaited.expected
  have coherent := tidy.coherent.withoutFailed expected
  refine drainLoop (tidy.shrink coherent rfl ?_ ?_)
  · intro hash member
    have fewer := (coherent.ready hash).mpr member
    exact (tidy.coherent.ready hash).mp (Finset.mem_of_mem_erase fewer)
  · intro hash isBad
    rcases Finset.mem_insert.mp isBad with same | old
    · subst same
      refine .inr ⟨?_, ?_⟩
      · intro member
        exact Finset.notMem_erase _ _ ((coherent.ready work.hash).mpr member)
      · rcases awaited.failed rfl with ⟨block, here, uncles⟩ |
          ⟨-, notUnknown, other⟩
        · refine tidy.bad_of_ready ?_
          rw [← expected.slot here uncles, readyHashes]
          exact List.mem_append_left _ (List.mem_append_right _
            (List.mem_map_of_mem here))
        · rw [← tidy.coherent.unknown]
          exact ⟨notUnknown, other⟩
    · exact .inl old

theorem reportGood (tidy : Tidy queue) {work : UnverifiedBlock}
    (expected : Expected queue work true) {info : Header}
    (hash : info.hash = work.hash) :
    Tidy (queue.reportGood work { info, blockData := some info }) := by
  have slots : ∀ block ∈ queue.verifying,
      block.info.sha3Uncles = work.hash → block.slot = work.hash :=
    fun block member => expected.slot member
  unfold BlockQueue.reportGood
  split
  · exact tidy
  · rename_i first rest verifying
    split
    · rename_i next
      have filled : Tidy { queue with
          verifying := { info, blockData := some info } :: rest } := by
        refine tidy.setVerifying ?_
        rw [verifying, List.map_cons, List.map_cons,
          slots first (by rw [verifying]; exact List.mem_cons_self) next]
        exact congrArg (· :: _) hash
      have judged := @Tidy.judge { queue with verifying := rest } _ rest
        filled rfl
      have same := setVerifying_judge { queue with verifying := rest }
        { info, blockData := some info }
      rw [same] at judged
      exact judged.drainLoop
    · exact tidy.setVerifying (map_slot_replace hash slots)

theorem finish (tidy : Tidy queue) {index : Nat} {success : Bool}
    (awaited : ∀ work, queue.working[index]? = some work →
      Awaited queue work success) : Tidy (queue.finish index success) := by
  unfold BlockQueue.finish
  split
  · exact tidy
  · rename_i work found
    obtain ⟨info, data, hash, -⟩ := tidy.coherent.carries work
      (.inr (List.mem_of_getElem? found))
    have awaitedHere := awaited work found
    have fewer : ∀ block ∈ queue.working.eraseIdx index,
        block ∈ queue.working :=
      fun block => List.mem_of_mem_eraseIdx
    rw [data]
    cases success with
    | true =>
        refine (tidy.setWorking fewer).reportGood ?_ hash
        exact ⟨awaitedHere.uncles, awaitedHere.expected.placeholder⟩
    | false =>
        refine (tidy.setWorking fewer).reportBad ?_
        exact ⟨awaitedHere.uncles, awaitedHere.failed⟩

theorem step (tidy : Tidy queue) {step : Step}
    (keeps : queue.KeepsTidy step) : Tidy (queue.step step) := by
  cases step with
  | import_ call => exact tidy.import_ call keeps
  | tick utcTime =>
      have before := tidy.coherent
      exact ⟨⟨before.nodup, before.ready, before.unknownNodup, before.unknown,
        before.apart, before.carries, before.unknownCarries⟩, tidy.unspoilt,
        tidy.parents⟩
  | drain max => exact tidy.drain max
  | doneDrain bad =>
      obtain ⟨absent, uncles, trails⟩ := keeps
      exact (tidy.doneDrain absent uncles trails).2
  | noteReady good => exact tidy.noteReady good
  | retryAllUnknown => exact tidy.retryAllUnknown
  | clear =>
      exact ⟨tidy.coherent.clear, fun _ _ => ⟨nofun, nofun⟩, nofun⟩
  | take placeholder => exact tidy.take placeholder
  | finish index success => exact tidy.finish keeps

theorem initial : Tidy {} :=
  ⟨.initial, fun _ _ => ⟨nofun, nofun⟩, nofun⟩

end Tidy

/-- In every run whose steps let purges work, a purge removes the queued
descendants of bad blocks, marks them as bad, and leaves all other blocks
alone. -/
theorem run_purges_exactly (steps : List Step)
    (keeps : Throughout KeepsTidy {} steps) :
    (∀ call, ((BlockQueue.run {} steps).import_ call).1 = .badChain →
      (BlockQueue.run {} steps).KeepsTidy (.import_ call) →
      PurgesExactly { BlockQueue.run {} steps with
          knownBad := insert call.block.hash
            (BlockQueue.run {} steps).knownBad }
        ((BlockQueue.run {} steps).import_ call).2) ∧
    ∀ bad, bad ≠ [] →
      (BlockQueue.run {} steps).KeepsTidy (.doneDrain bad) →
      PurgesExactly ((BlockQueue.run {} steps).endDrain bad)
        ((BlockQueue.run {} steps).doneDrain bad) := by
  have tidy : Tidy (BlockQueue.run {} steps) :=
    run_keeps (fun _ _ keepsHere tidy => tidy.step keepsHere) keeps
      Tidy.initial
  generalize BlockQueue.run {} steps = queue at tidy
  constructor
  · intro call bad keepsHere
    obtain ⟨new, -, purged⟩ := (imports_ queue call).of_badChain bad
    obtain ⟨uncles, trails⟩ := keepsHere bad
    rw [purged]
    exact (tidy.badChain new uncles trails).1
  · intro bad some_ keepsHere
    obtain ⟨absent, uncles, trails⟩ := keepsHere
    exact (tidy.doneDrain absent uncles trails).1 some_

/-- Block 9 is drained and reported as bad while its child 1 stands before
block 2, which does not descend from it: block 2 is marked as bad in place of
block 1. -/
theorem purge_marks_wrong_block :
    hashOfNat 2 ∈ (BlockQueue.run {} [importSample 9 0,
      .take (hashOfNat 500), .finish 0 true, .drain 1, importSample 1 9,
      importSample 2 0, .doneDrain [([], hashOfNat 9)]]).knownBad ∧
    ¬ PurgesExactly
      ((BlockQueue.run {} [importSample 9 0, .take (hashOfNat 500),
        .finish 0 true, .drain 1, importSample 1 9,
        importSample 2 0]).endDrain [([], hashOfNat 9)])
      (BlockQueue.run {} [importSample 9 0, .take (hashOfNat 500),
        .finish 0 true, .drain 1, importSample 1 9, importSample 2 0,
        .doneDrain [([], hashOfNat 9)]]) := by
  refine ⟨by decide +kernel, ?_⟩
  intro exactly
  have notMarked : hashOfNat 1 ∉ (BlockQueue.run {} [importSample 9 0,
      .take (hashOfNat 500), .finish 0 true, .drain 1, importSample 1 9,
      importSample 2 0, .doneDrain [([], hashOfNat 9)]]).knownBad := by
    decide +kernel
  refine notMarked ((exactly.knownBad _).mpr (.inr ?_))
  refine @Doomed.child _ (hashOfNat 1) (hashOfNat 9) ?_ ?_
  · decide +kernel
  · decide +kernel

/-- Block 9 is drained and reported as bad while only its child is
queued. -/
theorem run_purges_exactly_sample :
    PurgesExactly
      ((BlockQueue.run {} [importSample 9 0, .take (hashOfNat 500),
        .finish 0 true, .drain 1, importSample 1 9]).endDrain
        [([], hashOfNat 9)])
      ((BlockQueue.run {} [importSample 9 0, .take (hashOfNat 500),
        .finish 0 true, .drain 1, importSample 1 9]).doneDrain
        [([], hashOfNat 9)]) := by
  have imports : ∀ queue : BlockQueue, queue.knownBad = ∅ →
      ∀ hash parent, queue.KeepsTidy (importSample hash parent) := by
    intro queue none hash parent bad
    obtain ⟨-, badParent, -⟩ := (imports_ queue _).of_badChain bad
    rw [none] at badParent
    cases badParent
  have report : (BlockQueue.run {} [importSample 9 0,
      .take (hashOfNat 500)]).KeepsTidy (.finish 0 true) := by
    intro work found
    have working : (BlockQueue.run {} [importSample 9 0,
        .take (hashOfNat 500)]).working[0]? =
        some ⟨hashOfNat 9, hashOfNat 0, some (headerSample 9 0)⟩ := by
      decide +kernel
    cases working.symm.trans found
    constructor
    · decide +kernel
    · exact nofun
  have keeps : Throughout KeepsTidy {} [importSample 9 0,
      .take (hashOfNat 500), .finish 0 true, .drain 1, importSample 1 9] :=
    ⟨imports _ rfl 9 0, trivial, report, trivial,
      imports _ (by decide +kernel) 1 9, trivial⟩
  refine (run_purges_exactly _ keeps).2 [([], hashOfNat 9)]
    (List.cons_ne_nil _ _) ⟨?_, ?_, ?_, trivial⟩
  · decide +kernel
  · unfold UnclesApart
    decide +kernel
  · unfold PurgeTrails
    decide +kernel

end BlockQueue

end Aecmio
