import Aecmio.Queue.Purging
import Aecmio.Queue.Separation

/-!
# The difficulty of the queue

`m_difficulty` grows when a block is filed, and gets less when the blocks that
were drained are done with.  It does not notice that blocks leave with a
failed verification or a bad chain, and it counts a block again that `tick`
takes from `m_future` and imports.
-/

namespace Aecmio

namespace BlockQueue

/-- The hashes of the blocks that are not valid yet. -/
def futureHashes (queue : BlockQueue) : List H256 :=
  queue.future.map fun entry => entry.2.1

/-- The hashes of the blocks held elsewhere than in `m_future`. -/
def stocked (queue : BlockQueue) : Finset H256 :=
  (queue.unknownHashes ++ queue.readyHashes).toFinset ∪ queue.drainingSet

/-- The hashes of the blocks that the queue holds. -/
def held (queue : BlockQueue) : Finset H256 :=
  queue.futureHashes.toFinset ∪ queue.stocked

/-- The sum of the difficulties of the blocks that the queue holds. -/
def heldDifficulty (difficultyOf : H256 → ℕ) (queue : BlockQueue) : ℕ :=
  ∑ hash ∈ queue.held, difficultyOf hash

/-! ## What the steps must not do -/

/-- A purge from some roots finds nothing. -/
structure Spared (roots : List H256) (queue : BlockQueue) : Prop where
  unknown : ∀ entry ∈ queue.unknown, entry.1 ∉ roots
  verified : ∀ block ∈ queue.verified, queue.badVerified block = false
  unverified : ∀ block ∈ queue.unverified, queue.badUnverified block = false
  verifying : ∀ block ∈ queue.verifying, queue.badVerifying block = false

/-- The block is not refused. -/
def Accepts (queue : BlockQueue) (call : Import) : Prop :=
  New queue call.block.hash ∧ call.wellFormed = true ∧
    call.isKnown call.block.hash = false

/-- The block is not valid yet. -/
def Import.Early (call : Import) : Prop :=
  call.utcTime < call.block.timestamp ∧ call.isOurs = false

/-- The block is filed. -/
def Files (queue : BlockQueue) (call : Import) : Prop :=
  queue.Accepts call ∧
    (call.Early ∨ call.block.parentHash ∉ queue.knownBad)

/-- The block has a bad parent. -/
def Dismisses (queue : BlockQueue) (call : Import) : Prop :=
  queue.Accepts call ∧ ¬ call.Early ∧ call.block.parentHash ∈ queue.knownBad

/-- The finished blocks at the head of `m_verifying`. -/
def finishedFirst (verifying : List VerifiedBlock) : List VerifiedBlock :=
  verifying.takeWhile fun block => block.blockData.isSome

/-- No block leaves `m_verifying` with a report, but for `m_verified`. -/
def Retains (queue : BlockQueue) (work : UnverifiedBlock) : Bool → Prop
  | true => ∀ first rest, queue.verifying = first :: rest →
      first.info.sha3Uncles = work.hash → work.parentHash ∉ queue.knownBad ∧
        ∀ block ∈ finishedFirst rest, block.info.parentHash ∉ queue.knownBad
  | false => (∀ block ∈ queue.verifying, block.info.sha3Uncles ≠ work.hash) ∧
      ∀ block ∈ finishedFirst queue.verifying,
        block.info.parentHash ∉ insert work.hash queue.knownBad

/-- No block is filed that is in `m_future`, or whose difficulty the sum has no
room for, no block is due in `m_future`, no purge finds a block, and none
leaves with a report. -/
def Counts (difficultyOf : H256 → ℕ) (queue : BlockQueue) : Step → Prop
  | .import_ call =>
      (queue.Files call → call.block.hash ∉ queue.futureHashes ∧
        queue.heldDifficulty difficultyOf + call.block.difficulty.toNat <
          2 ^ 256) ∧
      (queue.Dismisses call → Spared [call.block.hash]
        { queue with knownBad := insert call.block.hash queue.knownBad })
  | .tick utcTime => ∀ entry ∈ queue.future, utcTime < entry.1
  | .doneDrain bad => bad ≠ [] →
      Spared (bad.map Prod.snd) (queue.endDrain bad)
  | .finish index success => ∀ work, queue.working[index]? = some work →
      queue.Retains work success
  | _ => True

variable {queue queue' : BlockQueue} {blocks : Header → Prop}
  {difficultyOf : H256 → ℕ} {hash : H256}

/-! ## What is held -/

theorem mem_stocked : hash ∈ queue.stocked ↔ hash ∈ queue.unknownHashes ∨
    hash ∈ queue.readyHashes ∨ hash ∈ queue.drainingSet := by
  rw [stocked, Finset.mem_union, List.mem_toFinset, List.mem_append, or_assoc]

/-- What is held stays what it is. -/
structure Keeps (blocks : Header → Prop) (queue queue' : BlockQueue) :
    Prop where
  future : queue'.future = queue.future
  stocked : ∀ hash, hash ∈ queue'.stocked ↔ hash ∈ queue.stocked
  drainingSet : queue'.drainingSet = queue.drainingSet
  difficulty : queue'.difficulty = queue.difficulty
  drainingDifficulty : queue'.drainingDifficulty = queue.drainingDifficulty
  verified : ∀ block ∈ queue'.verified,
    block ∈ queue.verified ∨ blocks block.info

theorem Keeps.refl (queue : BlockQueue) : Keeps blocks queue queue :=
  ⟨rfl, fun _ => Iff.rfl, rfl, rfl, rfl, fun _ => .inl⟩

theorem Keeps.trans {queue'' : BlockQueue} (first : Keeps blocks queue queue')
    (second : Keeps blocks queue' queue'') : Keeps blocks queue queue'' := by
  refine ⟨second.future.trans first.future, fun hash => ?_,
    second.drainingSet.trans first.drainingSet,
    second.difficulty.trans first.difficulty,
    second.drainingDifficulty.trans first.drainingDifficulty, ?_⟩
  · rw [second.stocked, first.stocked]
  · intro block member
    rcases second.verified block member with old | new
    · exact first.verified block old
    · exact .inr new

/-- The difficulty is that of the blocks held, and the one of the drained
blocks is right too. -/
structure Accounted (blocks : Header → Prop) (difficultyOf : H256 → ℕ)
    (queue : BlockQueue) : Prop where
  total : queue.difficulty.toNat = queue.heldDifficulty difficultyOf
  draining : queue.drainingDifficulty.toNat =
    ∑ hash ∈ queue.drainingSet, difficultyOf hash
  future : ∀ hash ∈ queue.futureHashes, hash ∉ queue.stocked
  verified : ∀ block ∈ queue.verified, blocks block.info

namespace Accounted

theorem keeps (accounted : Accounted blocks difficultyOf queue)
    (keeps : Keeps blocks queue queue') :
    Accounted blocks difficultyOf queue' := by
  have stocked : queue'.stocked = queue.stocked := Finset.ext keeps.stocked
  have hashes : queue'.futureHashes = queue.futureHashes := by
    rw [futureHashes, keeps.future]
    rfl
  refine ⟨?_, ?_, ?_, ?_⟩
  · rw [keeps.difficulty, accounted.total, heldDifficulty, heldDifficulty,
      held, held, stocked, hashes]
  · rw [keeps.drainingDifficulty, keeps.drainingSet, accounted.draining]
  · rw [hashes, stocked]
    exact accounted.future
  · intro block member
    rcases keeps.verified block member with old | new
    · exact accounted.verified block old
    · exact new

theorem initial : Accounted blocks difficultyOf {} :=
  ⟨rfl, rfl, nofun, nofun⟩

theorem clear : Accounted blocks difficultyOf queue.clear :=
  ⟨rfl, rfl, nofun, nofun⟩

end Accounted

/-! ## Purges that find nothing -/

theorem filter_not_eq_self {Block : Type} {pred : Block → Bool}
    {list : List Block} (none : ∀ block ∈ list, pred block = false) :
    (list.filter fun block => !pred block) = list := by
  apply List.filter_eq_self.mpr
  intro block member
  rw [none block member]
  rfl

namespace Spared

variable {roots : List H256}

theorem collectUnknownBad (spared : Spared roots queue) {bad : H256}
    (root : bad ∈ roots) : queue.collectUnknownBad bad = queue := by
  have other : ∀ entry ∈ queue.unknown, entry.1 ≠ bad := by
    rintro entry member rfl
    exact spared.unknown entry member root
  have none : queue.unknown.byKeyEqual bad = [] := by
    rw [SizedBlockMap.byKeyEqual, List.map_eq_nil_iff,
      List.filter_eq_nil_iff]
    intro entry member
    simpa using other entry member
  have kept : queue.unknown.eraseKey bad = queue.unknown := by
    apply List.filter_eq_self.mpr
    intro entry member
    simpa using other entry member
  have done : ∀ fuel, collectLoop fuel [] queue = queue := by
    intro fuel
    cases fuel <;> rfl
  rw [BlockQueue.collectUnknownBad, collectLoop]
  simp only [none, kept, List.foldl_nil, List.map_nil, List.append_nil]
  exact done _

theorem purgeRound (spared : Spared roots queue) :
    queue.purgeRound = queue := by
  have first : queue.purgeVerified = queue := by
    rw [purgeVerified, removeIf_of_none (filter_not_eq_self spared.verified)]
    rfl
  have second : queue.purgeUnverified = queue := by
    rw [purgeUnverified,
      removeIf_of_none (filter_not_eq_self spared.unverified)]
    rfl
  have third : queue.purgeVerifying = queue := by
    rw [purgeVerifying, removeIf_of_none (filter_not_eq_self spared.verifying)]
    rfl
  rw [BlockQueue.purgeRound, first, second, third]

theorem updateBad (spared : Spared roots queue) {bad : H256}
    (root : bad ∈ roots) : queue.updateBad bad = queue := by
  rw [BlockQueue.updateBad, spared.collectUnknownBad root, purgeLoop,
    spared.purgeRound, if_neg (lt_irrefl _)]

/-- Blocks that verifiers take are no worse than before. -/
theorem take (spared : Spared roots queue) (placeholder : H256) :
    Spared roots (queue.take placeholder) := by
  cases waiting : queue.unverified with
  | nil =>
      have same : queue.take placeholder = queue := by
        rw [BlockQueue.take, waiting]
      rwa [same]
  | cons work rest =>
      have good := spared.unverified work (by simp [waiting])
      have taken : queue.take placeholder = { queue with
          unverified := rest
          verifying := queue.verifying ++ [{ info := {
            hash := placeholder
            parentHash := work.parentHash
            sha3Uncles := work.hash } }]
          working := queue.working ++ [work]
          history := queue.history.advance work.hash .waiting .working } := by
        rw [BlockQueue.take, waiting]
      rw [taken]
      refine ⟨spared.unknown, spared.verified, ?_, ?_⟩
      · intro block member
        exact spared.unverified block (by simp [waiting, member])
      · intro block member
        rcases List.mem_append.mp member with old | new
        · exact spared.verifying block old
        · rw [List.mem_singleton.mp new]
          exact good

end Spared

/-! ## Steps that keep what is held -/

namespace Keeps

/-- Other fields do not matter. -/
theorem of_fields (future : queue'.future = queue.future)
    (unknown : queue'.unknown = queue.unknown)
    (ready : ∀ hash, hash ∈ queue'.readyHashes ↔ hash ∈ queue.readyHashes)
    (drainingSet : queue'.drainingSet = queue.drainingSet)
    (difficulty : queue'.difficulty = queue.difficulty)
    (drainingDifficulty :
      queue'.drainingDifficulty = queue.drainingDifficulty)
    (verified : ∀ block ∈ queue'.verified,
      block ∈ queue.verified ∨ blocks block.info) :
    Keeps blocks queue queue' := by
  refine ⟨future, fun hash => ?_, drainingSet, difficulty,
    drainingDifficulty, verified⟩
  rw [mem_stocked, mem_stocked, ready, unknownHashes, unknown, drainingSet]
  rfl

theorem take (queue : BlockQueue) (placeholder : H256) :
    Keeps blocks queue (queue.take placeholder) := by
  cases waiting : queue.unverified with
  | nil =>
      have same : queue.take placeholder = queue := by
        rw [BlockQueue.take, waiting]
      rw [same]
      exact .refl queue
  | cons work rest =>
      apply of_fields <;> simp [BlockQueue.take, waiting, readyHashes,
        VerifiedBlock.slot]
      exact fun block => .inl

theorem takeAll (queue : BlockQueue) (placeholders : List H256) :
    Keeps blocks queue (placeholders.foldl
      (fun queue placeholder => queue.take placeholder) queue) := by
  induction placeholders generalizing queue with
  | nil => exact .refl queue
  | cons placeholder rest induction =>
      exact (take queue placeholder).trans (induction _)

/-- Blocks go from `m_unknown` to `m_unverified`. -/
theorem moves {joined : List UnverifiedBlock}
    (moves : Moves joined queue queue') : Keeps blocks queue queue' := by
  have drainingSet : queue'.drainingSet = queue.drainingSet := by
    rw [moves.rest]
  have verified : queue'.verified = queue.verified := by rw [moves.rest]
  refine ⟨by rw [moves.rest], fun hash => ?_, drainingSet,
    by rw [moves.rest], by rw [moves.rest], ?_⟩
  · rw [mem_stocked, mem_stocked, moves.readyHashes, drainingSet,
      ← moves.hashes.mem_iff, List.mem_append, List.mem_append]
    tauto
  · rw [verified]
    exact fun block => .inl

theorem noteReady (queue : BlockQueue) (good : H256) :
    Keeps blocks queue (queue.noteReady good) := by
  obtain ⟨joined, joins⟩ := noteReady_joins good queue
  exact .moves joins.toMoves

theorem retryLoop (fuel : Nat) (queue : BlockQueue) :
    Keeps blocks queue (BlockQueue.retryLoop fuel queue) := by
  induction fuel generalizing queue with
  | zero => exact .refl queue
  | succ fuel induction =>
      unfold BlockQueue.retryLoop
      split
      · exact .refl queue
      · rename_i parent _ rest listed
        exact (moves (admits parent queue).moves).trans (induction _)

/-- The purges of `doneDrain` when they find nothing. -/
theorem purges {roots : List H256} (bad : List (List H256 × H256))
    (spared : Spared roots queue) (root : ∀ entry ∈ bad, entry.2 ∈ roots) :
    Keeps blocks queue (bad.foldl (fun queue entry =>
      (entry.1.foldl (fun queue placeholder => queue.take placeholder)
        queue).updateBad entry.2) queue) := by
  induction bad generalizing queue with
  | nil => exact .refl queue
  | cons entry rest induction =>
      have taken : Spared roots (entry.1.foldl
          (fun queue placeholder => queue.take placeholder) queue) := by
        generalize entry.1 = placeholders
        clear induction root
        induction placeholders generalizing queue with
        | nil => exact spared
        | cons placeholder placeholders induction =>
            exact induction (spared.take placeholder)
      rw [List.foldl_cons, taken.updateBad (root entry List.mem_cons_self)]
      exact (takeAll queue entry.1).trans (induction taken
        fun later member => root later (List.mem_cons_of_mem _ member))

/-! ## Reports -/

/-- The finished blocks leave the head of `m_verifying` for `m_verified`. -/
theorem drainLoop {verifying : List VerifiedBlock}
    (good : ∀ block ∈ finishedFirst verifying,
      block.info.parentHash ∉ queue.knownBad)
    (finished : ∀ block ∈ verifying, block.blockData.isSome →
      blocks block.info) :
    Keeps blocks { queue with verifying } (queue.drainLoop verifying) := by
  induction verifying generalizing queue with
  | nil => exact .refl _
  | cons block rest induction =>
      unfold BlockQueue.drainLoop
      split
      · rename_i done
        have first : finishedFirst (block :: rest) =
            block :: finishedFirst rest := List.takeWhile_cons_of_pos done
        rw [first] at good
        have slot : block.slot = block.info.hash := if_pos done
        have same := @judge_good queue _ (good block List.mem_cons_self)
        have knownBad : (queue.judge block).knownBad = queue.knownBad := by
          rw [same]
        have judged : Keeps blocks { queue with verifying := block :: rest }
            { queue.judge block with verifying := rest } := by
          rw [same]
          refine of_fields rfl rfl ?_ rfl rfl rfl ?_
          · intro hash
            simp [readyHashes, slot]
          · intro other member
            rcases List.mem_append.mp member with old | new
            · exact .inl old
            · rw [List.mem_singleton.mp new]
              exact .inr (finished block List.mem_cons_self done)
        refine judged.trans (induction ?_ ?_)
        · intro later member
          rw [knownBad]
          exact good later (List.mem_cons_of_mem _ member)
        · intro later member
          exact finished later (List.mem_cons_of_mem _ member)
      · exact .refl _

theorem setVerifying {verifying : List VerifiedBlock}
    (slots : verifying.map VerifiedBlock.slot =
      queue.verifying.map VerifiedBlock.slot) :
    Keeps blocks queue { queue with verifying } := by
  refine of_fields rfl rfl (fun hash => ?_) rfl rfl rfl fun block => .inl
  simp only [readyHashes, slots]

theorem reportGood (arranged : Arranged blocks queue)
    (apart : UnclesOutside blocks) {work : UnverifiedBlock} {info : Header}
    (known : blocks info) (hash : info.hash = work.hash)
    (parent : info.parentHash = work.parentHash)
    (retains : queue.Retains work true) : Keeps blocks queue
      (queue.reportGood work { info, blockData := some info }) := by
  have slots : ∀ block ∈ queue.verifying,
      block.info.sha3Uncles = work.hash → block.slot = work.hash := by
    intro block member same
    unfold VerifiedBlock.slot
    split
    · rename_i done
      rw [← hash] at same
      exact absurd same
        (apart block.info info (arranged.finished block member done) known)
    · exact same
  unfold BlockQueue.reportGood
  split
  · exact .refl queue
  · rename_i first rest verifying
    split
    · rename_i next
      obtain ⟨good, others⟩ := retains first rest verifying next
      rw [← parent] at good
      have here := slots first (by rw [verifying]; exact List.mem_cons_self)
        next
      have filled : Keeps blocks queue { queue with
          verifying := { info, blockData := some info } :: rest } := by
        apply setVerifying
        rw [verifying, List.map_cons, List.map_cons, here]
        exact congrArg (· :: _) hash
      have drained := @drainLoop { queue with verifying := rest } blocks
        ({ info, blockData := some info } :: rest) (by
          intro block member
          rcases List.mem_cons.mp member with same | later
          · rw [same]
            exact good
          · exact others block later) (by
          intro block member done
          rcases List.mem_cons.mp member with same | later
          · rw [same]
            exact known
          · exact arranged.finished block (by
              rw [verifying]
              exact List.mem_cons_of_mem _ later) done)
      have order : BlockQueue.drainLoop { queue with verifying := rest }
          ({ info, blockData := some info } :: rest) =
            BlockQueue.drainVerified (judge { queue with verifying := rest }
              { info, blockData := some info }) := by
        have same := setVerifying_judge { queue with verifying := rest }
          { info, blockData := some info }
        rw [BlockQueue.drainLoop, BlockQueue.drainVerified, ← same]
        rfl
      rw [← order]
      exact filled.trans drained
    · exact setVerifying (map_slot_replace hash slots)

theorem reportBad (arranged : Arranged blocks queue) {work : UnverifiedBlock}
    (retains : queue.Retains work false) :
    Keeps blocks queue (queue.reportBad work) := by
  obtain ⟨absent, good⟩ := retains
  have none : (removeIf VerifiedBlock.moved
      (fun block => block.info.sha3Uncles = work.hash) queue.verifying).1 =
      queue.verifying := by
    apply filter_not_eq_self
    intro block member
    exact decide_eq_false (absent block member)
  have marked : Keeps blocks queue { queue with
      readySet := queue.readySet.erase work.hash
      knownBad := insert work.hash queue.knownBad } :=
    of_fields rfl rfl (fun _ => Iff.rfl) rfl rfl rfl fun _ => .inl
  have drained := @drainLoop { queue with
    readySet := queue.readySet.erase work.hash
    knownBad := insert work.hash queue.knownBad } blocks queue.verifying good
    arranged.finished
  rw [BlockQueue.reportBad, none]
  exact marked.trans drained

theorem finish (arranged : Arranged blocks queue)
    (apart : UnclesOutside blocks) {index : Nat} {success : Bool}
    (retains : ∀ work, queue.working[index]? = some work →
      queue.Retains work success) :
    Keeps blocks queue (queue.finish index success) := by
  unfold BlockQueue.finish
  split
  · exact .refl queue
  · rename_i work found
    have retains := retains work found
    obtain ⟨info, data, known, hash, parent⟩ := arranged.carries work
      (.inr (List.mem_of_getElem? found))
    have fewer : ∀ block ∈ queue.working.eraseIdx index,
        block ∈ queue.working :=
      fun block => List.mem_of_mem_eraseIdx
    have noted : ∀ history, Keeps blocks queue { queue with
        working := queue.working.eraseIdx index, history } := fun history =>
      of_fields rfl rfl (fun _ => Iff.rfl) rfl rfl rfl fun _ => .inl
    rw [data]
    cases success with
    | true =>
        exact (noted _).trans (reportGood (arranged.setWorking fewer) apart
          known hash parent retains)
    | false =>
        exact (noted _).trans
          (reportBad (arranged.setWorking fewer) retains)

end Keeps

/-! ## Steps that change what is held -/

theorem toNat_sum {list : List U256}
    (small : (list.map BitVec.toNat).sum < 2 ^ 256) :
    list.sum.toNat = (list.map BitVec.toNat).sum := by
  induction list with
  | nil => rfl
  | cons first rest induction =>
      rw [List.map_cons, List.sum_cons] at small
      have tail := induction (by omega)
      rw [List.sum_cons, List.map_cons, List.sum_cons, BitVec.toNat_add, tail,
        Nat.mod_eq_of_lt small]

/-- The hash of a block determines its difficulty. -/
def Sized (blocks : Header → Prop) (difficultyOf : H256 → ℕ) : Prop :=
  ∀ block, blocks block → difficultyOf block.hash = block.difficulty.toNat

namespace Accounted

theorem drain (accounted : Accounted blocks difficultyOf queue)
    (arranged : Arranged blocks queue) (sized : Sized blocks difficultyOf)
    (max : Nat) : Accounted blocks difficultyOf (queue.drain max).2 := by
  unfold BlockQueue.drain
  split
  · rename_i none
    have parts : queue.verified.map (fun block => block.info.hash) =
        (queue.verified.take max).map (fun block => block.info.hash) ++
          (queue.verified.drop max).map fun block => block.info.hash := by
      rw [← List.map_append, List.take_append_drop]
    have inserted := foldl_insert_mem (queue.verified.take max)
      (fun block : VerifiedBlock => block.info.hash) ∅
    have drained : (queue.verified.take max).foldl
        (fun set block => insert block.info.hash set) ∅ =
        ((queue.verified.take max).map
          fun block => block.info.hash).toFinset := by
      ext hash
      rw [inserted, List.mem_toFinset]
      exact or_iff_right (Finset.notMem_empty hash)
    have stocked : ∀ hash, hash ∈ BlockQueue.stocked { queue with
        verified := queue.verified.drop max
        drainingSet := (queue.verified.take max).foldl
          (fun set block => insert block.info.hash set) ∅
        drainingDifficulty := ((queue.verified.take max).map
          fun block => block.info.difficulty).sum
        readySet := (queue.verified.take max).foldl
          (fun set block => set.erase block.info.hash) queue.readySet } ↔
        hash ∈ queue.stocked := by
      intro hash
      rw [mem_stocked, mem_stocked, none, drained]
      simp only [readyHashes, unknownHashes, parts, List.mem_append,
        List.mem_toFinset, Finset.notMem_empty, or_false]
      tauto
    have taken : ((queue.verified.take max).map
        fun block => block.info.hash).Nodup := by
      have nodup := arranged.nodup
      rw [readyHashes, parts, List.append_assoc, List.append_assoc,
        List.nodup_append] at nodup
      exact nodup.1
    have known : ∀ block ∈ queue.verified.take max, blocks block.info :=
      fun block member => accounted.verified block (List.mem_of_mem_take member)
    have sums : ∑ hash ∈ ((queue.verified.take max).map
        fun block => block.info.hash).toFinset, difficultyOf hash =
        (((queue.verified.take max).map fun block =>
          block.info.difficulty).map BitVec.toNat).sum := by
      rw [List.sum_toFinset _ taken, List.map_map, List.map_map]
      congr 1
      apply List.map_congr_left
      intro block member
      exact sized block.info (known block member)
    have small : ∑ hash ∈ ((queue.verified.take max).map
        fun block => block.info.hash).toFinset, difficultyOf hash <
          2 ^ 256 := by
      have subset : ((queue.verified.take max).map
          fun block => block.info.hash).toFinset ⊆ queue.held := by
        intro hash member
        apply Finset.mem_union_right
        rw [mem_stocked, readyHashes, parts]
        rw [List.mem_toFinset] at member
        simp only [List.mem_append]
        tauto
      have below := Finset.sum_le_sum_of_subset subset (f := difficultyOf)
      have total := accounted.total
      have bounded := queue.difficulty.isLt
      rw [heldDifficulty] at total
      omega
    refine ⟨?_, ?_, ?_, ?_⟩
    · refine accounted.total.trans ?_
      rw [heldDifficulty, heldDifficulty, held, held,
        ← Finset.ext stocked]
      rfl
    · rw [sums] at small
      simp only [drained, sums]
      exact toNat_sum small
    · intro hash member
      rw [stocked]
      exact accounted.future hash member
    · exact fun block member =>
        accounted.verified block (List.mem_of_mem_drop member)
  · exact accounted

theorem endDrain (accounted : Accounted blocks difficultyOf queue)
    (arranged : Arranged blocks queue) (bad : List (List H256 × H256)) :
    Accounted blocks difficultyOf (queue.endDrain bad) := by
  have stocked : ∀ hash, hash ∈ (queue.endDrain bad).stocked ↔
      hash ∈ queue.stocked ∧ hash ∉ queue.drainingSet := by
    intro hash
    have notWaiting := arranged.waiting hash
    have notReady := arranged.drained hash
    rw [mem_stocked, mem_stocked]
    simp only [BlockQueue.endDrain, unknownHashes, readyHashes,
      Finset.notMem_empty, or_false] at *
    tauto
  have split : queue.held =
      (queue.endDrain bad).held ∪ queue.drainingSet := by
    ext hash
    rw [held, held, Finset.mem_union, Finset.mem_union, Finset.mem_union,
      stocked]
    have inside : hash ∈ queue.drainingSet → hash ∈ queue.stocked :=
      fun draining => mem_stocked.mpr (.inr (.inr draining))
    have same : (queue.endDrain bad).futureHashes = queue.futureHashes := rfl
    rw [same]
    tauto
  have apart : Disjoint (queue.endDrain bad).held queue.drainingSet := by
    rw [Finset.disjoint_left]
    intro hash member draining
    rcases Finset.mem_union.mp member with later | rest
    · exact accounted.future hash (List.mem_toFinset.mp later)
        (mem_stocked.mpr (.inr (.inr draining)))
    · exact ((stocked hash).mp rest).2 draining
  have total := accounted.total
  rw [heldDifficulty, split, Finset.sum_union apart, ← accounted.draining]
    at total
  refine ⟨?_, rfl, ?_, accounted.verified⟩
  · have less : queue.drainingDifficulty ≤ queue.difficulty := by
      rw [BitVec.le_def]
      omega
    have difference := BitVec.toNat_sub_of_le less
    rw [heldDifficulty]
    simp only [BlockQueue.endDrain] at total ⊢
    omega
  · intro hash member
    rw [stocked]
    exact fun both => accounted.future hash member both.1

theorem doneDrain (accounted : Accounted blocks difficultyOf queue)
    (arranged : Arranged blocks queue) {bad : List (List H256 × H256)}
    (counts : queue.Counts difficultyOf (.doneDrain bad)) :
    Accounted blocks difficultyOf (queue.doneDrain bad) := by
  have ended := accounted.endDrain arranged bad
  cases bad with
  | nil => exact ended
  | cons entry rest =>
      exact ended.keeps (.purges _ (counts (List.cons_ne_nil _ _))
        fun later member => List.mem_map_of_mem member)

/-- A block joins those that are held. -/
theorem total_insert (accounted : Accounted blocks difficultyOf queue)
    {block : Header} (new : block.hash ∉ queue.held)
    (size : difficultyOf block.hash = block.difficulty.toNat)
    (room : queue.heldDifficulty difficultyOf + block.difficulty.toNat <
      2 ^ 256) (held : queue'.held = insert block.hash queue.held)
    (difficulty : queue'.difficulty = queue.difficulty + block.difficulty) :
    queue'.difficulty.toNat = queue'.heldDifficulty difficultyOf := by
  have total := accounted.total
  have sum : (queue.difficulty + block.difficulty).toNat =
      queue.difficulty.toNat + block.difficulty.toNat := by
    rw [BitVec.toNat_add, Nat.mod_eq_of_lt (by omega)]
  rw [difficulty, sum, heldDifficulty, held, Finset.sum_insert new, size,
    total, heldDifficulty]
  exact Nat.add_comm _ _

end Accounted

/-! ## Imports -/

/-- What an import does with a block that is not refused. -/
inductive Filing (queue : BlockQueue) (call : Import) : BlockQueue → Prop
  | refused : Filing queue call queue
  | future (files : queue.Files call) : Filing queue call { queue with
      future := queue.future.insert (fun first second => first < second)
        call.block.timestamp call.block.hash (some call.block)
      difficulty := queue.difficulty + call.block.difficulty }
  | badChain (dismisses : queue.Dismisses call) : Filing queue call (updateBad
      { queue with knownBad := insert call.block.hash queue.knownBad }
      call.block.hash)
  | unknownParent (files : queue.Files call) : Filing queue call { queue with
      unknown := queue.unknown.insert
        (fun first second => first.val < second.val)
        call.block.parentHash call.block.hash (some call.block)
      unknownSet := insert call.block.hash queue.unknownSet
      difficulty := queue.difficulty + call.block.difficulty }
  | success (files : queue.Files call) : Filing queue call
      (noteReady call.block.hash
        { queue.enqueue ⟨call.block.hash, call.block.parentHash,
            some call.block⟩ with
          readySet := insert call.block.hash queue.readySet
          difficulty := queue.difficulty + call.block.difficulty })

theorem filing (queue : BlockQueue) (call : Import) :
    Filing queue call (queue.import_ call).2 := by
  unfold BlockQueue.import_
  simp only
  split
  · exact .refused
  · rename_i absent
    simp only [not_or] at absent
    split
    · exact .refused
    · rename_i wellFormed
      split
      · exact .refused
      · rename_i outside
        have accepts : queue.Accepts call :=
          ⟨⟨absent.1, absent.2.1, absent.2.2.1, absent.2.2.2⟩,
            by simpa using wellFormed, by simpa using outside⟩
        split
        · rename_i early
          exact .future ⟨accepts, .inl ⟨early.1, by simpa using early.2⟩⟩
        · rename_i now
          have late : ¬ call.Early := fun early =>
            now ⟨early.1, by simpa using early.2⟩
          split
          · rename_i bad
            exact .badChain ⟨accepts, late, bad⟩
          · rename_i good
            split
            · exact .unknownParent ⟨accepts, .inr good⟩
            · exact .success ⟨accepts, .inr good⟩

namespace Accounted

theorem not_stocked (arranged : Arranged blocks queue)
    (new : New queue hash) : hash ∉ queue.stocked := by
  rw [mem_stocked, ← arranged.unknown]
  rintro (waits | ready | draining)
  · exact new.unknown waits
  · exact (arranged.known hash ready).elim new.ready new.bad
  · exact new.draining draining

/-- A block is filed elsewhere than in `m_future`. -/
theorem file (accounted : Accounted blocks difficultyOf queue)
    (arranged : Arranged blocks queue) {block : Header}
    (new : New queue block.hash) (absent : block.hash ∉ queue.futureHashes)
    (size : difficultyOf block.hash = block.difficulty.toNat)
    (room : queue.heldDifficulty difficultyOf + block.difficulty.toNat <
      2 ^ 256) (future : queue'.future = queue.future)
    (stocked : ∀ hash, hash ∈ queue'.stocked ↔
      hash = block.hash ∨ hash ∈ queue.stocked)
    (difficulty : queue'.difficulty = queue.difficulty + block.difficulty)
    (drainingSet : queue'.drainingSet = queue.drainingSet)
    (drainingDifficulty :
      queue'.drainingDifficulty = queue.drainingDifficulty)
    (verified : queue'.verified = queue.verified) :
    Accounted blocks difficultyOf queue' := by
  have hashes : queue'.futureHashes = queue.futureHashes := by
    rw [futureHashes, future]
    rfl
  have inserted : queue'.held = insert block.hash queue.held := by
    ext other
    rw [held, held, Finset.mem_insert, Finset.mem_union, Finset.mem_union,
      stocked, hashes]
    tauto
  have notHeld : block.hash ∉ queue.held := by
    rw [held, Finset.mem_union, List.mem_toFinset]
    rintro (later | here)
    · exact absent later
    · exact not_stocked arranged new here
  refine ⟨accounted.total_insert notHeld size room inserted difficulty, ?_, ?_,
    ?_⟩
  · rw [drainingDifficulty, drainingSet, accounted.draining]
  · intro other member
    rw [hashes] at member
    rw [stocked]
    rintro (same | old)
    · rw [same] at member
      exact absent member
    · exact accounted.future other member old
  · rw [verified]
    exact accounted.verified

/-- A block is filed in `m_future`. -/
theorem postpone (accounted : Accounted blocks difficultyOf queue)
    (arranged : Arranged blocks queue) {block : Header}
    (new : New queue block.hash) (absent : block.hash ∉ queue.futureHashes)
    (size : difficultyOf block.hash = block.difficulty.toNat)
    (room : queue.heldDifficulty difficultyOf + block.difficulty.toNat <
      2 ^ 256) (less : Int → Int → Bool) :
    Accounted blocks difficultyOf { queue with
      future := queue.future.insert less block.timestamp block.hash
        (some block)
      difficulty := queue.difficulty + block.difficulty } := by
  have perm := SizedBlockMap.insert_perm less block.timestamp block.hash
    (some block) queue.future
  have hashes := perm.map fun entry => entry.2.1
  have notStocked := not_stocked arranged new
  have notHeld : block.hash ∉ queue.held := by
    rw [held, Finset.mem_union, List.mem_toFinset]
    exact not_or.mpr ⟨absent, notStocked⟩
  refine ⟨accounted.total_insert notHeld size room ?_ rfl, accounted.draining,
    ?_, accounted.verified⟩
  · ext other
    rw [held, held, Finset.mem_insert, Finset.mem_union, Finset.mem_union,
      List.mem_toFinset, List.mem_toFinset, futureHashes, hashes.mem_iff,
      List.map_cons, List.mem_cons, or_assoc]
    rfl
  · intro other member
    rcases List.mem_cons.mp (hashes.mem_iff.mp member) with
      same | old
    · rw [same]
      exact notStocked
    · exact accounted.future other old

theorem import_ (accounted : Accounted blocks difficultyOf queue)
    (arranged : Arranged blocks queue) (sized : Sized blocks difficultyOf)
    {call : Import} (known : blocks call.block)
    (counts : queue.Counts difficultyOf (.import_ call)) :
    Accounted blocks difficultyOf (queue.import_ call).2 := by
  have size := sized call.block known
  have filing := filing queue call
  generalize (queue.import_ call).2 = queue' at filing
  cases filing with
  | refused => exact accounted
  | future files =>
      obtain ⟨absent, room⟩ := counts.1 files
      exact accounted.postpone arranged files.1.1 absent size room _
  | badChain dismisses =>
      rw [(counts.2 dismisses).updateBad (List.mem_singleton_self _)]
      exact accounted.keeps (.of_fields rfl rfl (fun _ => Iff.rfl) rfl rfl rfl
        fun _ => .inl)
  | unknownParent files =>
      obtain ⟨absent, room⟩ := counts.1 files
      have perm := SizedBlockMap.insert_perm
        (fun first second : H256 => first.val < second.val)
        call.block.parentHash call.block.hash (some call.block) queue.unknown
      have hashes := perm.map fun entry => entry.2.1
      refine accounted.file arranged files.1.1 absent size room rfl
        (fun other => ?_) rfl rfl rfl rfl
      rw [mem_stocked, mem_stocked, unknownHashes, hashes.mem_iff,
        List.map_cons, List.mem_cons, or_assoc]
      rfl
  | success files =>
      obtain ⟨absent, room⟩ := counts.1 files
      refine Accounted.keeps ?_ (.noteReady _ _)
      refine accounted.file arranged files.1.1 absent size room rfl
        (fun other => ?_) rfl rfl rfl rfl
      rw [mem_stocked, mem_stocked]
      simp only [unknownHashes, readyHashes, BlockQueue.enqueue,
        List.map_append, List.map_cons, List.map_nil, List.mem_append,
        List.mem_singleton]
      tauto

theorem step (accounted : Accounted blocks difficultyOf queue)
    (arranged : Arranged blocks queue) (apart : UnclesOutside blocks)
    (sized : Sized blocks difficultyOf) {step : Step}
    (known : ∀ call, step = .import_ call → blocks call.block)
    (counts : queue.Counts difficultyOf step) :
    Accounted blocks difficultyOf (queue.step step) := by
  cases step with
  | import_ call =>
      exact accounted.import_ arranged sized (known call rfl) counts
  | tick utcTime =>
      have kept : (queue.future.filter fun entry =>
          decide (¬ entry.1 ≤ utcTime)) = queue.future := by
        apply List.filter_eq_self.mpr
        intro entry member
        exact decide_eq_true (not_le.mpr (counts entry member))
      exact accounted.keeps (.of_fields kept rfl (fun _ => Iff.rfl) rfl rfl
        rfl fun _ => .inl)
  | drain max => exact accounted.drain arranged sized max
  | doneDrain bad => exact accounted.doneDrain arranged counts
  | noteReady good => exact accounted.keeps (.noteReady queue good)
  | retryAllUnknown => exact accounted.keeps (.retryLoop _ queue)
  | clear => exact clear
  | take placeholder => exact accounted.keeps (.take queue placeholder)
  | finish index success =>
      exact accounted.keeps (.finish arranged apart counts)

theorem run (accounted : Accounted blocks difficultyOf queue)
    (arranged : Arranged blocks queue) (apart : UnclesOutside blocks)
    (sized : Sized blocks difficultyOf) {steps : List Step}
    (known : ∀ call, Step.import_ call ∈ steps → blocks call.block)
    (counts : Throughout (Counts difficultyOf) queue steps) :
    Accounted blocks difficultyOf (queue.run steps) := by
  induction steps generalizing queue with
  | nil => exact accounted
  | cons step rest induction =>
      have here : ∀ call, step = .import_ call → blocks call.block := by
        intro call same
        exact known call (by rw [same]; exact List.mem_cons_self)
      exact induction (accounted.step arranged apart sized here counts.1)
        (arranged.step apart step here)
        (fun call member => known call (List.mem_cons_of_mem _ member))
        counts.2

end Accounted

/-- In every run whose steps all count, the difficulty is the sum of the
difficulties of the blocks that are held. -/
theorem run_difficulty (difficultyOf : H256 → ℕ) (steps : List Step)
    (apart : UnclesOutside (Imported steps))
    (sized : Sized (Imported steps) difficultyOf)
    (counts : Throughout (Counts difficultyOf) {} steps) :
    (BlockQueue.run {} steps).difficulty.toNat =
      ∑ hash ∈ (BlockQueue.run {} steps).held, difficultyOf hash :=
  (Accounted.initial.run .initial apart sized
    (fun call member => ⟨call, member, rfl⟩) counts).total

/-- The import of a block of difficulty five, at some time; it is valid from
time hundred on. -/
def weighedSample (utcTime : Int) : Step :=
  .import_ { block := { headerSample 1 0 with difficulty := 5
                                              timestamp := 100 }
             isKnown := fun known => known = hashOfNat 0
             utcTime }

/-- A block is verified, drained and done with. -/
theorem run_difficulty_sample :
    (BlockQueue.run {} [weighedSample 200, .take (hashOfNat 500),
      .finish 0 true, .drain 1]).difficulty.toNat =
      ∑ _hash ∈ (BlockQueue.run {} [weighedSample 200,
        .take (hashOfNat 500), .finish 0 true, .drain 1]).held, 5 := by
  have imported : ∀ block, Imported [weighedSample 200,
      .take (hashOfNat 500), .finish 0 true, .drain 1] block →
      block = { headerSample 1 0 with difficulty := 5, timestamp := 100 } := by
    rintro block ⟨call, member, rfl⟩
    simp only [weighedSample, List.mem_cons, List.not_mem_nil, or_false,
      Step.import_.injEq, reduceCtorEq] at member
    rw [member]
  refine run_difficulty (fun _ => 5) _ ?_ ?_ ⟨⟨?_, ?_⟩, trivial, ?_, trivial,
    trivial⟩
  · intro first second inside inside'
    rw [imported first inside, imported second inside']
    decide +kernel
  · intro block inside
    rw [imported block inside]
    rfl
  · intro _
    exact ⟨List.not_mem_nil, by decide +kernel⟩
  · rintro ⟨-, -, bad⟩
    exact absurd bad (Finset.notMem_empty _)
  · have none : (BlockQueue.run {} [weighedSample 200,
        .take (hashOfNat 500)]).knownBad = ∅ := by decide +kernel
    intro work _ first rest _ _
    change _ ∉ (BlockQueue.run {} [weighedSample 200,
      .take (hashOfNat 500)]).knownBad ∧ ∀ block ∈ finishedFirst rest,
        _ ∉ (BlockQueue.run {} [weighedSample 200,
          .take (hashOfNat 500)]).knownBad
    rw [none]
    exact ⟨Finset.notMem_empty _, fun _ _ => Finset.notMem_empty _⟩

/-- A block that `tick` takes from `m_future` is counted again when it is
imported, and one that fails to verify leaves with its difficulty counted. -/
theorem tick_counts_twice :
    ((BlockQueue.run {} [weighedSample 0, .tick 200,
        weighedSample 200]).held = {hashOfNat 1} ∧
      (BlockQueue.run {} [weighedSample 0, .tick 200,
        weighedSample 200]).difficulty.toNat ≠
        ∑ _hash ∈ (BlockQueue.run {} [weighedSample 0, .tick 200,
          weighedSample 200]).held, 5) ∧
    (BlockQueue.run {} [weighedSample 200, .take (hashOfNat 500),
        .finish 0 false]).held = ∅ ∧
      (BlockQueue.run {} [weighedSample 200, .take (hashOfNat 500),
        .finish 0 false]).difficulty = 5 := by
  decide +kernel

end BlockQueue

end Aecmio
