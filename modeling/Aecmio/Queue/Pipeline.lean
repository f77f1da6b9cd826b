import Aecmio.Queue.Ready

/-!
# The order of verified blocks

However many verifiers there are and in whatever order they report, the
blocks go into `m_verified` in the order in which they went into
`m_unverified`.  `m_verifying` holds the blocks that are being verified and
the finished ones behind an unfinished one, in that order.
-/

namespace Aecmio

namespace BlockQueue

variable {queue queue' : BlockQueue}

/-! ## Records -/

/-- The block is in `m_verifying`. -/
def Stage.inBuffer : Stage → Bool
  | .working => true
  | .succeeded => true
  | _ => false

@[simp]
theorem Stage.inBuffer_judged (bad : Bool) :
    (Stage.judged bad).inBuffer = false := rfl

@[simp]
theorem Stage.inBuffer_failed : Stage.failed.inBuffer = false := rfl

@[simp]
theorem Stage.inBuffer_waiting : Stage.waiting.inBuffer = false := rfl

@[simp]
theorem Stage.inBuffer_working : Stage.working.inBuffer = true := rfl

@[simp]
theorem Stage.inBuffer_succeeded : Stage.succeeded.inBuffer = true := rfl

/-- The block has left `m_verifying`. -/
def Stage.left : Stage → Bool
  | .failed => true
  | .judged _ => true
  | _ => false

/-- Its verifier has reported. -/
def Stage.finished : Stage → Bool
  | .waiting => false
  | .working => false
  | _ => true

/-- How a record is kept in `m_verifying`. -/
structure Slot (record : Record) (block : VerifiedBlock) : Prop where
  parentHash : block.info.parentHash = record.block.parentHash
  working : record.stage = .working →
    block.blockData = none ∧ block.info.sha3Uncles = record.block.hash
  succeeded : record.stage = .succeeded →
    block.blockData = some block.info ∧
      record.block.blockData = some block.info ∧
      block.info.hash = record.block.hash

/-- The blocks that were taken stand before those that wait, and those that
left the head before those that stay. -/
def Precedes (first second : Record) : Prop :=
  (first.stage = .waiting → second.stage = .waiting) ∧
    ∀ bad, second.stage = .judged bad → first.stage.left

/-- The records and the queues, with `verifying` in the place of
`m_verifying`. -/
structure PipedWith (verifying : List VerifiedBlock) (queue : BlockQueue) :
    Prop where
  waiting : queue.unverified = (queue.history.records.filter fun record =>
    record.stage = .waiting).map Record.block
  buffer : List.Forall₂ Slot (queue.history.records.filter fun record =>
    record.stage.inBuffer) verifying
  working : queue.working.Perm ((queue.history.records.filter fun record =>
    record.stage = .working).map Record.block)
  appended : queue.history.appended.map VerifiedBlock.blockData =
    (queue.history.records.filter fun record =>
      record.stage = .judged false).map fun record => record.block.blockData
  ordered : queue.history.records.Pairwise Precedes

/-- No finished block stands at the head of `m_verifying`. -/
structure Piped (queue : BlockQueue) : Prop where
  piped : PipedWith queue.verifying queue
  head : ∀ block ∈ queue.verifying.head?, block.blockData = none

theorem Stage.cases_of_inBuffer {stage : Stage} (inBuffer : stage.inBuffer) :
    stage = .working ∨ stage = .succeeded := by
  cases stage with
  | working => exact .inl rfl
  | succeeded => exact .inr rfl
  | waiting => cases inBuffer
  | failed => cases inBuffer
  | judged => cases inBuffer

theorem Slot.slot {record : Record} {block : VerifiedBlock}
    (slot : Slot record block) (inBuffer : record.stage.inBuffer) :
    block.slot = record.block.hash := by
  unfold VerifiedBlock.slot
  rcases Stage.cases_of_inBuffer inBuffer with working | succeeded
  · obtain ⟨none, uncles⟩ := slot.working working
    rw [none]
    exact uncles
  · obtain ⟨some_, -, hash⟩ := slot.succeeded succeeded
    rw [some_]
    exact hash

theorem Slot.stage_of_isSome {record : Record} {block : VerifiedBlock}
    (slot : Slot record block) (inBuffer : record.stage.inBuffer)
    (finished : block.blockData.isSome) : record.stage = .succeeded := by
  rcases Stage.cases_of_inBuffer inBuffer with working | succeeded
  · rw [(slot.working working).1] at finished
    cases finished
  · exact succeeded

theorem advance_eq {hash : H256} {before after : Stage}
    {front back : List Record} {record : Record}
    (here : record.block.hash = hash ∧ record.stage = before)
    (others : ∀ other ∈ front,
      ¬ (other.block.hash = hash ∧ other.stage = before)) :
    advance hash before after (front ++ record :: back) =
      front ++ { record with stage := after } :: back := by
  induction front with
  | nil => exact if_pos here
  | cons first rest induction =>
      rw [List.cons_append, advance, if_neg (others first List.mem_cons_self),
        induction fun other member =>
          others other (List.mem_cons_of_mem _ member)]
      rfl

/-- One element of an ordered list changes. -/
theorem pairwise_replace {Element : Type} {precedes : Element → Element → Prop}
    {front back : List Element} {old new : Element}
    (ordered : (front ++ old :: back).Pairwise precedes)
    (before : ∀ other ∈ front, precedes other new)
    (behind : ∀ other ∈ back, precedes new other) :
    (front ++ new :: back).Pairwise precedes := by
  rw [List.pairwise_append, List.pairwise_cons] at ordered
  obtain ⟨inFront, ⟨-, inBack⟩, across⟩ := ordered
  refine List.pairwise_append.mpr
    ⟨inFront, List.pairwise_cons.mpr ⟨behind, inBack⟩, ?_⟩
  intro other member later laterMember
  rcases List.mem_cons.mp laterMember with rfl | inside
  · exact before other member
  · exact across other member later (List.mem_cons_of_mem _ inside)

theorem pairwise_before {Element : Type} {precedes : Element → Element → Prop}
    {front back : List Element} {element other : Element}
    (ordered : (front ++ element :: back).Pairwise precedes)
    (member : other ∈ front) : precedes other element :=
  (List.pairwise_append.mp ordered).2.2 other member element
    List.mem_cons_self

theorem pairwise_behind {Element : Type} {precedes : Element → Element → Prop}
    {front back : List Element} {element other : Element}
    (ordered : (front ++ element :: back).Pairwise precedes)
    (member : other ∈ back) : precedes element other :=
  (List.pairwise_cons.mp (List.pairwise_append.mp ordered).2.1).1 other member

theorem Stage.inBuffer_of_left {stage : Stage} (left : stage.left) :
    stage.inBuffer = false := by
  cases stage with
  | failed => rfl
  | judged => rfl
  | waiting => cases left
  | working => cases left
  | succeeded => cases left

namespace PipedWith

variable {verifying : List VerifiedBlock}

theorem slots (piped : PipedWith verifying queue) :
    verifying.map VerifiedBlock.slot =
      (queue.history.records.filter fun record =>
        record.stage.inBuffer).map fun record => record.block.hash := by
  have buffer := piped.buffer
  have members : ∀ record ∈ queue.history.records.filter fun record =>
      record.stage.inBuffer, record.stage.inBuffer :=
    fun record member => (List.mem_filter.mp member).2
  clear piped
  generalize (queue.history.records.filter fun record =>
    record.stage.inBuffer) = records at buffer members
  induction buffer with
  | nil => rfl
  | cons slot _ induction =>
      rw [List.map_cons, List.map_cons,
        slot.slot (members _ List.mem_cons_self),
        induction fun record member =>
          members record (List.mem_cons_of_mem _ member)]

/-- Only the records, `m_unverified` and the verifiers matter. -/
theorem congr (piped : PipedWith verifying queue)
    (unverified : queue'.unverified = queue.unverified)
    (working : queue'.working = queue.working)
    (history : queue'.history = queue.history) :
    PipedWith verifying queue' := by
  refine ⟨?_, ?_, ?_, ?_, ?_⟩
  · rw [unverified, history]
    exact piped.waiting
  · rw [history]
    exact piped.buffer
  · rw [working, history]
    exact piped.working
  · rw [history]
    exact piped.appended
  · rw [history]
    exact piped.ordered

/-- The first record in the buffer, and what stands before and behind it. -/
theorem first {block : VerifiedBlock} {rest : List VerifiedBlock}
    (piped : PipedWith (block :: rest) queue) :
    ∃ front record back,
      queue.history.records = front ++ record :: back ∧
      Slot record block ∧ record.stage.inBuffer ∧
      (∀ other ∈ front, other.stage.left) ∧
      List.Forall₂ Slot (back.filter fun record => record.stage.inBuffer)
        rest := by
  have buffer := piped.buffer
  cases listed : (queue.history.records.filter fun record =>
      record.stage.inBuffer) with
  | nil =>
      rw [listed] at buffer
      cases buffer
  | cons record others =>
      rw [listed] at buffer
      obtain ⟨slot, bufferRest⟩ := List.forall₂_cons.mp buffer
      obtain ⟨front, back, records, outside, inBuffer, behind⟩ :=
        List.filter_eq_cons_iff.mp listed
      refine ⟨front, record, back, records, slot, inBuffer, ?_, ?_⟩
      · intro other member
        have ordered := piped.ordered
        rw [records] at ordered
        have notWaiting := (pairwise_before ordered member).1
        have notInside := outside other member
        cases stage : other.stage with
        | waiting =>
            rw [notWaiting stage] at inBuffer
            cases inBuffer
        | working => exact absurd (by rw [stage]; rfl) notInside
        | succeeded => exact absurd (by rw [stage]; rfl) notInside
        | failed => rfl
        | judged => rfl
      · rw [behind]
        exact bufferRest

/-- The head of `m_verifying` leaves it. -/
theorem judge {block : VerifiedBlock} {rest : List VerifiedBlock}
    (piped : PipedWith (block :: rest) queue)
    (finished : block.blockData.isSome) :
    PipedWith rest (queue.judge block) := by
  obtain ⟨front, record, back, records, slot, inBuffer, left, buffer⟩ :=
    piped.first
  have succeeded : record.stage = .succeeded := slot.stage_of_isSome inBuffer
    finished
  obtain ⟨blockData, recordData, hash⟩ := slot.succeeded succeeded
  have ordered := piped.ordered
  have appended := piped.appended
  rw [records] at ordered appended
  have advanced : ∀ bad, advance block.info.hash .succeeded (.judged bad)
      queue.history.records =
      front ++ { record with stage := .judged bad } :: back := by
    intro bad
    rw [records]
    refine advance_eq ⟨hash.symm, succeeded⟩ ?_
    intro other member both
    have leaves := left other member
    rw [both.2] at leaves
    cases leaves
  have unjudged : ∀ bad, (back.filter fun record =>
      record.stage = .judged bad) = [] := by
    intro bad
    rw [List.filter_eq_nil_iff]
    intro other member stage
    have leaves := (pairwise_behind ordered member).2 bad
      (of_decide_eq_true stage)
    rw [succeeded] at leaves
    cases leaves
  -- What does not depend on the parent of the block.
  have kept : ∀ bad, PipedWith rest { queue with
      history := {
        records := advance block.info.hash .succeeded (.judged bad)
          queue.history.records
        appended := queue.history.appended ++
          if bad then [] else [block] } } := by
    intro bad
    refine ⟨?_, ?_, ?_, ?_, ?_⟩
    · rw [advanced, piped.waiting, records]
      simp [List.filter_append, List.filter_cons, succeeded]
    · rw [advanced, List.filter_append, List.filter_cons_of_neg (by simp),
        List.filter_eq_nil_iff.mpr, List.nil_append]
      · exact buffer
      · intro other member
        simp [Stage.inBuffer_of_left (left other member)]
    · refine piped.working.trans ?_
      rw [advanced, records]
      simp [List.filter_append, List.filter_cons, succeeded]
    · rw [advanced]
      simp only [List.map_append, appended]
      cases bad with
      | true => simp [List.filter_append, List.filter_cons, succeeded]
      | false =>
          simp [List.filter_append, List.filter_cons, succeeded, unjudged,
            blockData, recordData]
    · rw [advanced]
      refine pairwise_replace ordered ?_ ?_
      · intro other member
        have leaves := left other member
        refine ⟨?_, fun _ _ => leaves⟩
        intro waits
        rw [waits] at leaves
        cases leaves
      · intro other member
        exact ⟨nofun, fun _ _ => rfl⟩
  by_cases bad : block.info.parentHash ∈ queue.knownBad
  · have same := kept true
    rw [if_pos rfl, List.append_nil] at same
    rw [judge_bad bad]
    exact same.congr rfl rfl rfl
  · rw [judge_good bad]
    exact (kept false).congr rfl rfl rfl

/-- The loop stops at a block that is not finished. -/
theorem drainLoop (piped : PipedWith verifying queue) :
    Piped (queue.drainLoop verifying) := by
  induction verifying generalizing queue with
  | nil =>
      exact ⟨piped.congr rfl rfl rfl, nofun⟩
  | cons block rest induction =>
      unfold BlockQueue.drainLoop
      split
      · rename_i finished
        exact induction (piped.judge finished)
      · rename_i unfinished
        refine ⟨piped.congr rfl rfl rfl, ?_⟩
        intro first head
        cases head
        exact Option.not_isSome_iff_eq_none.mp unfinished

/-- Blocks are enqueued. -/
theorem enqueue (piped : PipedWith verifying queue)
    {blocks : List UnverifiedBlock}
    (unverified : queue'.unverified = queue.unverified ++ blocks)
    (working : queue'.working = queue.working)
    (history : queue'.history = { queue.history with
      records := queue.history.records ++
        blocks.map fun block => ⟨block, .waiting⟩ }) :
    PipedWith verifying queue' := by
  have none : ∀ pred : Record → Bool,
      (∀ block, pred ⟨block, .waiting⟩ = false) →
      (blocks.map fun block => (⟨block, .waiting⟩ : Record)).filter pred =
        [] := by
    intro pred out
    rw [List.filter_eq_nil_iff]
    intro record member
    obtain ⟨block, -, rfl⟩ := List.mem_map.mp member
    simp [out]
  refine ⟨?_, ?_, ?_, ?_, ?_⟩
  · rw [unverified, history, piped.waiting]
    simp [List.filter_append, List.filter_map, Function.comp_def]
  · rw [history, List.filter_append, none _ fun _ => rfl, List.append_nil]
    exact piped.buffer
  · rw [working, history, List.filter_append, none _ fun _ => rfl,
      List.append_nil]
    exact piped.working
  · rw [history, List.filter_append, none _ fun _ => rfl, List.append_nil]
    exact piped.appended
  · rw [history]
    refine List.pairwise_append.mpr ⟨piped.ordered, ?_, ?_⟩
    · rw [List.pairwise_map]
      exact List.pairwise_of_forall fun _ _ => ⟨fun _ => rfl, nofun⟩
    · intro record _ added member
      obtain ⟨block, -, rfl⟩ := List.mem_map.mp member
      exact ⟨fun _ => rfl, nofun⟩

/-- The first record that waits: all behind it wait, none before it does. -/
theorem firstWaiting {work : UnverifiedBlock} {rest : List UnverifiedBlock}
    (piped : PipedWith verifying queue)
    (unverified : queue.unverified = work :: rest) :
    ∃ front back, queue.history.records =
        front ++ ⟨work, .waiting⟩ :: back ∧
      (∀ other ∈ front, other.stage ≠ .waiting) ∧
      (∀ other ∈ back, other.stage = .waiting) ∧
      back.map Record.block = rest := by
  have waiting := piped.waiting
  rw [unverified] at waiting
  obtain ⟨⟨block, stage⟩, others, listed, rfl, restEq⟩ :=
    List.map_eq_cons_iff.mp waiting.symm
  obtain ⟨front, back, records, outside, waits, behind⟩ :=
    List.filter_eq_cons_iff.mp listed
  have stageEq : stage = .waiting := of_decide_eq_true waits
  subst stageEq
  have ordered := piped.ordered
  rw [records] at ordered
  have allWait : ∀ other ∈ back, other.stage = .waiting :=
    fun other member => (pairwise_behind ordered member).1 rfl
  refine ⟨front, back, records, ?_, allWait, ?_⟩
  · intro other member stage
    exact outside other member (decide_eq_true stage)
  · rw [← restEq, ← behind, List.filter_eq_self.mpr]
    intro other member
    exact decide_eq_true (allWait other member)

/-- A verifier takes the first block that waits. -/
theorem take {work : UnverifiedBlock} {rest : List UnverifiedBlock}
    (piped : PipedWith verifying queue)
    (unverified : queue.unverified = work :: rest) (placeholder : H256) :
    PipedWith (verifying ++ [{ info := {
        hash := placeholder
        parentHash := work.parentHash
        sha3Uncles := work.hash } }])
      { queue with
        unverified := rest
        working := queue.working ++ [work]
        history := queue.history.advance work.hash .waiting .working } := by
  obtain ⟨front, back, records, before, behind, restEq⟩ :=
    piped.firstWaiting unverified
  have advanced : advance work.hash .waiting .working
      queue.history.records = front ++ ⟨work, .working⟩ :: back := by
    rw [records]
    exact advance_eq ⟨rfl, rfl⟩ fun other member both =>
      before other member both.2
  have none : ∀ pred : Stage → Bool, pred .waiting = false →
      (back.filter fun record => pred record.stage) = [] := by
    intro pred out
    rw [List.filter_eq_nil_iff]
    intro other member
    simp [behind other member, out]
  have buffer := piped.buffer
  have working := piped.working
  have appended := piped.appended
  have ordered := piped.ordered
  rw [records] at buffer working appended ordered
  refine ⟨?_, ?_, ?_, ?_, ?_⟩
  · show rest = ((advance _ _ _ _).filter _).map _
    rw [advanced, ← restEq, List.filter_append,
      List.filter_cons_of_neg (by simp), List.filter_eq_nil_iff.mpr,
      List.nil_append, List.filter_eq_self.mpr]
    · intro other member
      exact decide_eq_true (behind other member)
    · intro other member stage
      exact before other member (of_decide_eq_true stage)
  · show List.Forall₂ _ ((advance _ _ _ _).filter _) _
    rw [List.filter_append, List.filter_cons_of_neg (by simp),
      none Stage.inBuffer rfl, List.append_nil] at buffer
    rw [advanced, List.filter_append, List.filter_cons_of_pos (by simp),
      none Stage.inBuffer rfl]
    refine List.rel_append buffer (.cons ⟨rfl, fun _ => ⟨rfl, rfl⟩, ?_⟩ .nil)
    exact nofun
  · show (queue.working ++ [work]).Perm (((advance _ _ _ _).filter _).map _)
    have noWork := none (· = .working) rfl
    rw [List.filter_append, List.filter_cons_of_neg (by simp), noWork,
      List.append_nil] at working
    rw [advanced, List.filter_append, List.filter_cons_of_pos (by simp),
      noWork, List.map_append]
    exact working.append_right _
  · refine appended.trans ?_
    show _ = ((advance _ _ _ _).filter _).map _
    rw [advanced]
    simp [List.filter_append, List.filter_cons]
  · show (advance _ _ _ _).Pairwise _
    rw [advanced]
    refine pairwise_replace ordered ?_ ?_
    · intro other member
      exact ⟨fun waits => absurd waits (before other member), nofun⟩
    · intro other member
      refine ⟨nofun, fun bad stage => ?_⟩
      rw [behind other member] at stage
      cases stage

end PipedWith

/-- An element of a list has a counterpart. -/
theorem forall₂_append_cons {Left Right : Type} {related : Left → Right → Prop}
    {front back : List Left} {left : Left} {rights : List Right}
    (all : List.Forall₂ related (front ++ left :: back) rights) :
    ∃ frontRight right backRight, rights = frontRight ++ right :: backRight ∧
      List.Forall₂ related front frontRight ∧ related left right ∧
      List.Forall₂ related back backRight := by
  induction front generalizing rights with
  | nil =>
      cases all with
      | cons here behind => exact ⟨[], _, _, rfl, .nil, here, behind⟩
  | cons first rest induction =>
      cases all with
      | cons here behind =>
          obtain ⟨frontRight, right, backRight, rfl, before, found, after⟩ :=
            induction behind
          exact ⟨_ :: frontRight, right, backRight, rfl,
            .cons here before, found, after⟩

/-- Where a block that is being verified stands. -/
structure Located (queue : BlockQueue) (work : UnverifiedBlock)
    (front back : List Record) (before : List VerifiedBlock)
    (block : VerifiedBlock) (behind : List VerifiedBlock) : Prop where
  records : queue.history.records = front ++ ⟨work, .working⟩ :: back
  verifying : queue.verifying = before ++ block :: behind
  frontBuffer : List.Forall₂ Slot
    (front.filter fun record => record.stage.inBuffer) before
  slot : Slot ⟨work, .working⟩ block
  backBuffer : List.Forall₂ Slot
    (back.filter fun record => record.stage.inBuffer) behind
  /-- No other block has the hash. -/
  other : ∀ other, other ∈ front ∨ other ∈ back → other.stage.inBuffer →
    other.block.hash ≠ work.hash

theorem Piped.located (piped : Piped queue) (coherent : Coherent queue)
    {work : UnverifiedBlock} (atWork : work ∈ queue.working) :
    ∃ front back before block behind,
      Located queue work front back before block behind := by
  have member := piped.piped.working.mem_iff.mp atWork
  obtain ⟨⟨_, stage⟩, listed, rfl⟩ := List.mem_map.mp member
  obtain ⟨recorded, works⟩ := List.mem_filter.mp listed
  have stageEq : stage = .working := of_decide_eq_true works
  subst stageEq
  obtain ⟨front, back, records⟩ := List.append_of_mem recorded
  have buffer := piped.piped.buffer
  have slots := piped.piped.slots
  rw [records, List.filter_append, List.filter_cons_of_pos (by simp)]
    at buffer slots
  obtain ⟨before, block, behind, verifying, frontBuffer, slot, backBuffer⟩ :=
    forall₂_append_cons buffer
  refine ⟨front, back, before, block, behind, records, verifying,
    frontBuffer, slot, backBuffer, ?_⟩
  have nodup : (queue.verifying.map VerifiedBlock.slot).Nodup := by
    refine coherent.nodup.sublist ?_
    exact (List.sublist_append_right _ _).trans
      (List.sublist_append_left _ _)
  rw [slots, List.map_append, List.map_cons, List.nodup_middle,
    ← List.map_append, ← List.filter_append] at nodup
  intro other cases_ inBuffer same
  refine (List.nodup_cons.mp nodup).1 ?_
  rw [← same]
  exact List.mem_map_of_mem (List.mem_filter.mpr
    ⟨List.mem_append.mpr cases_, inBuffer⟩)

namespace Located

variable {work : UnverifiedBlock} {front back : List Record}
  {before behind : List VerifiedBlock} {block : VerifiedBlock}

theorem advanced (located : Located queue work front back before block behind)
    (stage : Stage) :
    advance work.hash .working stage queue.history.records =
      front ++ ⟨work, stage⟩ :: back := by
  rw [located.records]
  refine advance_eq ⟨rfl, rfl⟩ ?_
  intro other member both
  refine located.other other (.inl member) ?_ both.1
  rw [both.2]
  rfl

theorem uncles (located : Located queue work front back before block behind) :
    block.info.sha3Uncles = work.hash :=
  (located.slot.working rfl).2

theorem others (located : Located queue work front back before block behind) :
    List.Forall₂ Slot ((front ++ back).filter fun record =>
      record.stage.inBuffer) (before ++ behind) := by
  rw [List.filter_append]
  exact List.rel_append located.frontBuffer located.backBuffer

/-- Only the placeholder of the block has its hash as uncle hash. -/
theorem apart (located : Located queue work front back before block behind)
    (distinct : ∀ other ∈ queue.verifying, other.blockData.isSome →
      other.info.sha3Uncles ≠ work.hash) {other : VerifiedBlock}
    (member : other ∈ before ++ behind) :
    other.info.sha3Uncles ≠ work.hash := by
  by_cases finished : other.blockData.isSome
  · refine distinct other ?_ finished
    rw [located.verifying]
    exact List.perm_middle.symm.subset (List.mem_cons_of_mem _ member)
  · obtain ⟨first, last, parts⟩ := List.append_of_mem member
    have flipped : List.Forall₂ (flip Slot) (first ++ other :: last)
        ((front ++ back).filter fun record => record.stage.inBuffer) := by
      rw [← parts]
      exact located.others.flip
    obtain ⟨_, record, _, listed, -, slot, -⟩ := forall₂_append_cons flipped
    obtain ⟨inside, inBuffer⟩ := List.mem_filter.mp (by
      rw [listed]
      exact List.mem_append_right _ List.mem_cons_self)
    have same : other.slot = record.block.hash := Slot.slot slot inBuffer
    rw [VerifiedBlock.slot, if_neg finished] at same
    rw [same]
    exact located.other record (List.mem_append.mp inside) inBuffer

/-- The block is finished, and its placeholder is taken out or replaced. -/
theorem finish (located : Located queue work front back before block behind)
    (piped : Piped queue) {index : Nat}
    (found : queue.working[index]? = some work) {stage : Stage}
    {verifying : List VerifiedBlock}
    (unjudged : stage = .failed ∨ stage = .succeeded)
    (buffer : List.Forall₂ Slot
      ((front ++ ⟨work, stage⟩ :: back).filter fun record =>
        record.stage.inBuffer) verifying) :
    PipedWith verifying { queue with
      working := queue.working.eraseIdx index
      history := queue.history.advance work.hash .working stage } := by
  have piped := piped.piped
  have waiting := piped.waiting
  have working := piped.working
  have appended := piped.appended
  have ordered := piped.ordered
  rw [located.records] at waiting working appended ordered
  have reported : stage ≠ .waiting ∧ stage ≠ .working ∧
      ∀ bad, stage ≠ .judged bad := by
    cases unjudged with
    | inl failed =>
        rw [failed]
        exact ⟨nofun, nofun, nofun⟩
    | inr succeeded =>
        rw [succeeded]
        exact ⟨nofun, nofun, nofun⟩
  obtain ⟨notWaiting, notWorking, notJudged⟩ := reported
  refine ⟨?_, ?_, ?_, ?_, ?_⟩
  · refine waiting.trans ?_
    show _ = ((advance _ _ _ _).filter _).map _
    rw [located.advanced]
    simp [List.filter_append, List.filter_cons, notWaiting]
  · show List.Forall₂ _ ((advance _ _ _ _).filter _) _
    rw [located.advanced]
    exact buffer
  · show (queue.working.eraseIdx index).Perm
      (((advance _ _ _ _).filter _).map _)
    rw [located.advanced]
    obtain ⟨inside, atIndex⟩ := List.getElem?_eq_some_iff.mp found
    have whole := List.getElem_cons_eraseIdx_perm inside
    rw [atIndex] at whole
    refine List.Perm.cons_inv (whole.trans (working.trans ?_))
    simp only [List.filter_append, List.filter_cons, notWorking,
      decide_true, decide_false, if_true, List.map_append, List.map_cons]
    exact List.perm_middle
  · refine appended.trans ?_
    show _ = ((advance _ _ _ _).filter _).map _
    rw [located.advanced]
    simp [List.filter_append, List.filter_cons, notJudged]
  · show (advance _ _ _ _).Pairwise _
    rw [located.advanced]
    refine pairwise_replace ordered ?_ ?_
    · intro other member
      refine ⟨fun waits => ?_, fun bad judged => absurd judged (notJudged bad)⟩
      cases (pairwise_before ordered member).1 waits
    · intro other member
      refine ⟨fun waits => absurd waits notWaiting, fun bad judged => ?_⟩
      cases (pairwise_behind ordered member).2 bad judged

end Located

theorem replace_eq {hash : H256} {result block : VerifiedBlock}
    {before behind : List VerifiedBlock} (here : block.info.sha3Uncles = hash)
    (others : ∀ other ∈ before, other.info.sha3Uncles ≠ hash) :
    replace hash result (before ++ block :: behind) =
      before ++ result :: behind := by
  induction before with
  | nil => exact if_pos here
  | cons first rest induction =>
      rw [List.cons_append, replace,
        if_neg (others first List.mem_cons_self),
        induction fun other member =>
          others other (List.mem_cons_of_mem _ member)]
      rfl

namespace Piped

theorem reportBad {work : UnverifiedBlock} {front back : List Record}
    {before behind : List VerifiedBlock} {block : VerifiedBlock}
    (located : Located queue work front back before block behind)
    (distinct : ∀ other ∈ queue.verifying, other.blockData.isSome →
      other.info.sha3Uncles ≠ work.hash) {noted : BlockQueue}
    (verifying : noted.verifying = queue.verifying)
    (piped : PipedWith (before ++ behind) noted) :
    Piped (noted.reportBad work) := by
  have kept : (removeIf VerifiedBlock.moved
      (fun block => block.info.sha3Uncles = work.hash)
      noted.verifying).1 = before ++ behind := by
    show noted.verifying.filter _ = _
    rw [verifying, located.verifying, List.filter_append,
      List.filter_cons_of_neg (by simp [located.uncles]),
      ← List.filter_append, List.filter_eq_self]
    intro other member
    simp [located.apart distinct member]
  unfold BlockQueue.reportBad
  rw [kept]
  apply PipedWith.drainLoop
  exact piped.congr rfl rfl rfl

theorem reportGood {work : UnverifiedBlock} {front back : List Record}
    {before behind : List VerifiedBlock} {block result : VerifiedBlock}
    (located : Located queue work front back before block behind)
    (distinct : ∀ other ∈ queue.verifying, other.blockData.isSome →
      other.info.sha3Uncles ≠ work.hash)
    (head : ∀ block ∈ queue.verifying.head?, block.blockData = none)
    {noted : BlockQueue} (verifying : noted.verifying = queue.verifying)
    (finished : result.blockData.isSome)
    (piped : PipedWith (before ++ result :: behind) noted) :
    Piped (noted.reportGood work result) := by
  unfold BlockQueue.reportGood
  rw [verifying]
  have listed := located.verifying
  cases before with
  | nil =>
      -- The placeholder stands at the head.
      rw [listed]
      simp only [List.nil_append, located.uncles, if_true]
      have same := setVerifying_judge { noted with verifying := behind } result
      rw [BlockQueue.drainVerified, ← congrArg BlockQueue.verifying same]
      apply PipedWith.drainLoop
      apply PipedWith.judge _ finished
      exact piped.congr rfl rfl rfl
  | cons first rest =>
      -- The head is not finished.
      have others : ∀ other ∈ first :: rest,
          other.info.sha3Uncles ≠ work.hash := fun other member =>
        located.apart distinct (List.mem_append_left _ member)
      have replaced := @replace_eq _ result _ _ behind located.uncles others
      rw [← listed] at replaced
      simp only [listed, List.cons_append,
        others first List.mem_cons_self, if_false]
      rw [← List.cons_append, ← listed, replaced]
      refine ⟨piped.congr rfl rfl rfl, ?_⟩
      rw [listed] at head
      exact head

theorem finish (piped : Piped queue) (coherent : Coherent queue) {index : Nat}
    {success : Bool}
    (distinct : ∀ work, queue.working[index]? = some work →
      ∀ block ∈ queue.verifying, block.blockData.isSome →
        block.info.sha3Uncles ≠ work.hash) :
    Piped (queue.finish index success) := by
  unfold BlockQueue.finish
  split
  · exact piped
  · rename_i work found
    have atWork := List.mem_of_getElem? found
    obtain ⟨info, data, hash, parentHash⟩ :=
      coherent.carries work (.inr atWork)
    obtain ⟨front, back, before, block, behind, located⟩ :=
      piped.located coherent atWork
    rw [data]
    cases success with
    | true =>
        refine reportGood located (distinct work found) piped.head rfl rfl ?_
        refine located.finish piped found (.inr rfl) ?_
        rw [List.filter_append, List.filter_cons_of_pos (by simp)]
        refine List.rel_append located.frontBuffer (.cons ?_
          located.backBuffer)
        exact ⟨parentHash, nofun, fun _ => ⟨rfl, data, hash⟩⟩
    | false =>
        refine reportBad located (distinct work found) rfl ?_
        refine located.finish piped found (.inl rfl) ?_
        rw [List.filter_append, List.filter_cons_of_neg (by simp),
          ← List.filter_append]
        exact located.others

theorem expected (piped : Piped queue) (coherent : Coherent queue)
    {work : UnverifiedBlock} (atWork : work ∈ queue.working) (success : Bool)
    (distinct : ∀ block ∈ queue.verifying, block.blockData.isSome →
      block.info.sha3Uncles ≠ work.hash) : Expected queue work success := by
  refine ⟨distinct, fun _ _ => ?_⟩
  obtain ⟨_, _, before, block, behind, located⟩ :=
    piped.located coherent atWork
  refine ⟨block, ?_, located.uncles⟩
  rw [located.verifying]
  exact List.mem_append_right _ List.mem_cons_self

/-- `m_verifying` stays as it is. -/
theorem keep (piped : Piped queue)
    (verifying : queue'.verifying = queue.verifying)
    (pipedWith : PipedWith queue.verifying queue') : Piped queue' := by
  refine ⟨?_, ?_⟩
  · rw [verifying]
    exact pipedWith
  · rw [verifying]
    exact piped.head

theorem take (piped : Piped queue) (placeholder : H256) :
    Piped (queue.take placeholder) := by
  unfold BlockQueue.take
  split
  · exact piped
  · rename_i work rest unverified
    refine ⟨(piped.piped.take unverified placeholder).congr rfl rfl rfl, ?_⟩
    intro first head
    have verifyingHead := piped.head
    cases verifying : queue.verifying with
    | nil =>
        rw [verifying] at head
        cases head
        rfl
    | cons block others =>
        rw [verifying] at head verifyingHead
        exact verifyingHead first head

theorem admits (piped : Piped queue) {parent : H256}
    (admits : Admits parent queue queue') : Piped queue' := by
  refine piped.keep (by rw [admits.rest]) ?_
  exact piped.piped.enqueue admits.unverified (by rw [admits.rest])
    admits.history

theorem readyLoop (piped : Piped queue) (fuel : Nat)
    (goodQueue : List H256) :
    Piped (BlockQueue.readyLoop fuel goodQueue queue) := by
  induction fuel generalizing queue goodQueue with
  | zero => exact piped
  | succ fuel induction =>
      cases goodQueue with
      | nil => exact piped
      | cons parent goodQueue =>
          exact induction (piped.admits (BlockQueue.admits parent queue)) _

theorem retryLoop (piped : Piped queue) (fuel : Nat) :
    Piped (BlockQueue.retryLoop fuel queue) := by
  induction fuel generalizing queue with
  | zero => exact piped
  | succ fuel induction =>
      unfold BlockQueue.retryLoop
      split
      · exact piped
      · rename_i parent _ _ _
        exact induction (piped.admits (BlockQueue.admits parent queue))

theorem import_ (piped : Piped queue) (call : Import)
    (notBad : (queue.import_ call).1 ≠ .badChain) :
    Piped (queue.import_ call).2 := by
  have imports := imports_ queue call
  generalize queue.import_ call = outcome at imports notBad
  cases imports with
  | refused => exact piped
  | future => exact piped.keep rfl (piped.piped.congr rfl rfl rfl)
  | badChain => exact absurd rfl notBad
  | unknownParent => exact piped.keep rfl (piped.piped.congr rfl rfl rfl)
  | success new good difficulty =>
      refine readyLoop ?_ _ _
      exact piped.keep rfl (piped.piped.enqueue rfl rfl rfl)

theorem drain (piped : Piped queue) (max : Nat) :
    Piped (queue.drain max).2 := by
  unfold BlockQueue.drain
  split
  · exact piped.keep rfl (piped.piped.congr rfl rfl rfl)
  · exact piped

theorem initial : Piped {} := by
  refine ⟨⟨rfl, .nil, .nil, rfl, .nil⟩, ?_⟩
  exact nofun

end Piped

/-- No block is reported as bad, the queue is not cleared, and no finished
block has the hash of a block that is being verified as its uncle hash. -/
def Quiet (queue : BlockQueue) : Step → Prop
  | .import_ call => (queue.import_ call).1 ≠ .badChain
  | .doneDrain bad => bad = []
  | .clear => False
  | .finish index _ => ∀ work, queue.working[index]? = some work →
      ∀ block ∈ queue.verifying, block.blockData.isSome →
        block.info.sha3Uncles ≠ work.hash
  | _ => True

theorem Piped.step (piped : Piped queue) (coherent : Coherent queue)
    {step : Step} (quiet : queue.Quiet step) :
    Piped (queue.step step) ∧ Coherent (queue.step step) := by
  cases step with
  | import_ call =>
      exact ⟨piped.import_ call quiet,
        coherent.import_ call fun bad => absurd bad quiet⟩
  | tick utcTime =>
      exact ⟨piped.keep rfl (piped.piped.congr rfl rfl rfl), coherent.step
        (show queue.KeepsReady (.tick utcTime) from trivial)⟩
  | drain max => exact ⟨piped.drain max, coherent.drain max⟩
  | doneDrain bad =>
      have none : bad = [] := quiet
      subst none
      exact ⟨piped.keep rfl (piped.piped.congr rfl rfl rfl),
        coherent.doneDrain [] trivial⟩
  | noteReady good => exact ⟨piped.readyLoop _ _, coherent.noteReady good⟩
  | retryAllUnknown => exact ⟨piped.retryLoop _, coherent.retryAllUnknown⟩
  | clear => exact absurd quiet id
  | take placeholder =>
      exact ⟨piped.take placeholder, coherent.take placeholder⟩
  | finish index success =>
      refine ⟨piped.finish coherent quiet, coherent.finish ?_⟩
      intro work found
      exact piped.expected coherent (List.mem_of_getElem? found) success
        (quiet work found)

/-- A finished block is still in `m_verifying` only behind one that is not
finished. -/
theorem Piped.left (piped : Piped queue) {front back : List Record}
    {record : Record}
    (records : queue.history.records = front ++ record :: back)
    (finished : ∀ other ∈ front ++ [record], other.stage.finished) :
    record.stage.left := by
  have succeeded : ∀ other ∈ front ++ [record], other.stage.inBuffer →
      other.stage = .succeeded := by
    intro other member inBuffer
    rcases Stage.cases_of_inBuffer inBuffer with working | succeeded
    · have done := finished other member
      rw [working] at done
      cases done
    · exact succeeded
  by_contra stays
  have inBuffer : record.stage.inBuffer := by
    have done := finished record
      (List.mem_append_right _ List.mem_cons_self)
    cases stage : record.stage with
    | succeeded => rfl
    | working => rw [stage] at done; cases done
    | waiting => rw [stage] at done; cases done
    | failed => exact absurd (by rw [stage]; rfl) stays
    | judged => exact absurd (by rw [stage]; rfl) stays
  have buffer := piped.piped.buffer
  have whole : queue.history.records = (front ++ [record]) ++ back := by
    rw [records, List.append_assoc]
    rfl
  rw [whole, List.filter_append] at buffer
  cases listed : ((front ++ [record]).filter fun record =>
      record.stage.inBuffer) with
  | nil =>
      rw [List.filter_eq_nil_iff] at listed
      exact listed record (List.mem_append_right _ List.mem_cons_self)
        inBuffer
  | cons first rest =>
      rw [listed] at buffer
      have member : first ∈ (front ++ [record]).filter fun record =>
          record.stage.inBuffer := by
        rw [listed]
        exact List.mem_cons_self
      obtain ⟨inside, firstBuffer⟩ := List.mem_filter.mp member
      have head := piped.head
      cases verifying : queue.verifying with
      | nil =>
          rw [verifying] at buffer
          cases buffer
      | cons block others =>
          rw [verifying] at buffer head
          obtain ⟨slot, -⟩ := List.forall₂_cons.mp buffer
          have data := (slot.succeeded (succeeded first inside firstBuffer)).1
          rw [head block rfl] at data
          cases data

end BlockQueue

end Aecmio
