import Aecmio.Logic.Runs
import Aecmio.Queue.Ready

/-!
# The sizes of the block queue

The containers of the block queue count the bytes of the blocks in them.  A
queue counts right as long as the blocks that it removes stand at its end:
`std::remove_if` leaves blocks without bytes behind those that stay, and they
are taken for the removed ones.  A map asks for the size of a block after the
bytes were moved into the map.
-/

namespace Aecmio

open BlockQueue (Trailing removeIf_of_trailing)

/-- What a queue reads of its blocks.  `m_unverified` never asks for the hash
of the uncles. -/
class QueuedBlock (Block : Type) where
  blockData : Block → Bytes
  /-- `verified.info.sha3Uncles`. -/
  sha3Uncles : Block → H256
  /-- What is left of a block that was moved elsewhere. -/
  moved : Block → Block
  blockData_moved : ∀ block, blockData (moved block) = []

open QueuedBlock

structure SizedBlockQueue (Block : Type) where
  queue : List Block := []
  size : BitVec 64 := 0
deriving DecidableEq

namespace SizedBlockQueue

variable {Block : Type} [QueuedBlock Block]

/-- `blockData.size`. -/
def sizeOf (block : Block) : BitVec 64 :=
  BitVec.ofNat 64 (blockData block).length

/-- `sha3UnclesEquals`. -/
def sha3UnclesEquals (hash : H256) (block : Block) : Bool :=
  sha3Uncles block = hash

def enqueue (block : Block) (blocks : SizedBlockQueue Block) :
    SizedBlockQueue Block where
  queue := blocks.queue ++ [block]
  size := blocks.size + sizeOf block

/-- `dequeue`; it may not be called on an empty queue. -/
def dequeue (blocks : SizedBlockQueue Block) :
    Option (Block × SizedBlockQueue Block) :=
  match blocks.queue with
  | [] => none
  | first :: rest => some (first,
      { queue := rest, size := blocks.size - sizeOf first })

/-- `removeRange`, with the places that the two iterators point to. -/
def removeRange (first last : Nat) (blocks : SizedBlockQueue Block) :
    List Block × SizedBlockQueue Block :=
  let ret := (blocks.queue.take last).drop first
  (ret,
    { queue := blocks.queue.take first ++ blocks.queue.drop last
      size := ret.foldl (fun size block => size - sizeOf block) blocks.size })

/-- `dequeueMultiple`; the queue may not have fewer blocks. -/
def dequeueMultiple (count : Nat) (blocks : SizedBlockQueue Block) :
    Option (List Block × SizedBlockQueue Block) :=
  if count ≤ blocks.queue.length then some (blocks.removeRange 0 count)
  else none

def removeIf (pred : Block → Bool) (blocks : SizedBlockQueue Block) :
    List Block × SizedBlockQueue Block :=
  let (kept, behind) := BlockQueue.removeIf moved pred blocks.queue
  removeRange kept.length (kept ++ behind).length
    { blocks with queue := kept ++ behind }

def remove (hash : H256) (blocks : SizedBlockQueue Block) :
    Bool × SizedBlockQueue Block :=
  let (removed, blocks) := blocks.removeIf (sha3UnclesEquals hash)
  (!removed.isEmpty, blocks)

def replace (hash : H256) (block : Block) (blocks : SizedBlockQueue Block) :
    Bool × SizedBlockQueue Block :=
  let other := fun block => !sha3UnclesEquals hash block
  match blocks.queue.dropWhile other with
  | [] => (false, blocks)
  | found :: rest => (true,
      { queue := blocks.queue.takeWhile other ++ block :: rest
        size := blocks.size - sizeOf found + sizeOf block })

inductive Call (Block : Type) where
  | enqueue (block : Block)
  | dequeue
  | dequeueMultiple (count : Nat)
  | remove (hash : H256)
  | removeIf (pred : Block → Bool)
  | replace (hash : H256) (block : Block)
  | clear

/-- What a call returns. -/
inductive Answer (Block : Type) where
  | nothing
  | flag (value : Bool)
  | blocks (list : List Block)
deriving DecidableEq

/-- A call, if it may be made. -/
def perform (blocks : SizedBlockQueue Block) :
    Call Block → Option (Answer Block × SizedBlockQueue Block)
  | .enqueue block => some (.nothing, blocks.enqueue block)
  | .dequeue => blocks.dequeue.map (Prod.map (.blocks [·]) id)
  | .dequeueMultiple count =>
      (blocks.dequeueMultiple count).map (Prod.map .blocks id)
  | .remove hash => some (Prod.map .flag id (blocks.remove hash))
  | .removeIf pred => some (Prod.map .blocks id (blocks.removeIf pred))
  | .replace hash block =>
      some (Prod.map .flag id (blocks.replace hash block))
  | .clear => some (.nothing, {})

def step (blocks : SizedBlockQueue Block) (call : Call Block) :
    Option (SizedBlockQueue Block) :=
  (blocks.perform call).map Prod.snd

/-! ## What the calls are for -/

/-- A call on a list of blocks. -/
def intended (queue : List Block) :
    Call Block → Option (Answer Block × List Block)
  | .enqueue block => some (.nothing, queue ++ [block])
  | .dequeue => queue.head?.map fun first => (.blocks [first], queue.tail)
  | .dequeueMultiple count =>
      if count ≤ queue.length then
        some (.blocks (queue.take count), queue.drop count)
      else none
  | .remove hash => some (.flag (queue.any (sha3UnclesEquals hash)),
      queue.filter fun block => !sha3UnclesEquals hash block)
  | .removeIf pred =>
      some (.blocks (queue.filter pred), queue.filter fun block => !pred block)
  | .replace hash block =>
      let other := fun block => !sha3UnclesEquals hash block
      if queue.any (sha3UnclesEquals hash) then
        some (.flag true,
          queue.takeWhile other ++ block :: (queue.dropWhile other).tail)
      else some (.flag false, queue)
  | .clear => some (.nothing, [])

/-- The bytes of some blocks, as a `size_t`. -/
def total (queue : List Block) : BitVec 64 :=
  BitVec.ofNat 64 (queue.map fun block => (blockData block).length).sum

/-- `size` is the number of the bytes in the queue. -/
def Accounted (blocks : SizedBlockQueue Block) : Prop :=
  blocks.size = total blocks.queue

instance (blocks : SizedBlockQueue Block) : Decidable (Accounted blocks) :=
  inferInstanceAs (Decidable (_ = _))

/-- The call returns and leaves what it should. -/
def Complies (blocks : SizedBlockQueue Block) (call : Call Block) : Prop :=
  (blocks.perform call).map (Prod.map id queue) = intended blocks.queue call

instance [DecidableEq Block] (blocks : SizedBlockQueue Block)
    (call : Call Block) : Decidable (Complies blocks call) :=
  inferInstanceAs (Decidable (_ = _))

/-- The blocks to be removed stand behind all others. -/
def Orderly (blocks : SizedBlockQueue Block) : Call Block → Prop
  | .remove hash => Trailing (sha3UnclesEquals hash) blocks.queue
  | .removeIf pred => Trailing pred blocks.queue
  | _ => True

@[simp]
theorem total_nil : total ([] : List Block) = 0 := rfl

@[simp]
theorem total_cons (block : Block) (queue : List Block) :
    total (block :: queue) = sizeOf block + total queue := by
  rw [total, List.map_cons, List.sum_cons, BitVec.ofNat_add]
  rfl

@[simp]
theorem total_append (front back : List Block) :
    total (front ++ back) = total front + total back := by
  rw [total, List.map_append, List.sum_append, BitVec.ofNat_add]
  rfl

/-- What is subtracted when some blocks leave. -/
theorem foldl_sizeOf (removed : List Block) (size : BitVec 64) :
    removed.foldl (fun size block => size - sizeOf block) size =
      size - total removed := by
  induction removed generalizing size with
  | nil => simp
  | cons block removed induction =>
      rw [List.foldl_cons, induction, total_cons]
      simp only [BitVec.sub_eq_add_neg, BitVec.neg_add, BitVec.add_assoc]

/-- A range and what is around it. -/
theorem total_range (queue : List Block) {first last : Nat}
    (ordered : first ≤ last) :
    total queue = total (queue.take first) +
      total ((queue.take last).drop first) + total (queue.drop last) := by
  have shorter : queue.take first = (queue.take last).take first := by
    rw [List.take_take, Nat.min_eq_left ordered]
  rw [shorter, ← total_append, ← total_append, List.take_append_drop,
    List.take_append_drop]

/-- A range is removed with its bytes. -/
theorem Accounted.removeRange {blocks : SizedBlockQueue Block}
    (accounted : Accounted blocks) {first last : Nat} (ordered : first ≤ last) :
    Accounted (blocks.removeRange first last).2 := by
  have parts := total_range blocks.queue ordered
  show (List.foldl _ _ _ : BitVec 64) = total (_ ++ _)
  rw [foldl_sizeOf, total_append, accounted, parts]
  ring

/-- Nothing is taken for removed that should stay. -/
theorem removeIf_eq {pred : Block → Bool} {blocks : SizedBlockQueue Block}
    (trailing : Trailing pred blocks.queue) :
    blocks.removeIf pred = blocks.removeRange
      (blocks.queue.filter fun block => !pred block).length
      blocks.queue.length := by
  rw [removeIf, removeIf_of_trailing trailing]
  simp only
  rw [← trailing.filter_append]

theorem fst_removeIf {pred : Block → Bool} {blocks : SizedBlockQueue Block}
    (trailing : Trailing pred blocks.queue) :
    (blocks.removeIf pred).1 = blocks.queue.filter pred := by
  rw [removeIf_eq trailing, removeRange, List.take_length]
  show blocks.queue.drop _ = _
  conv_lhs =>
    arg 2
    rw [trailing.filter_append]
  exact List.drop_left

theorem queue_removeIf {pred : Block → Bool} {blocks : SizedBlockQueue Block}
    (trailing : Trailing pred blocks.queue) :
    (blocks.removeIf pred).2.queue =
      blocks.queue.filter fun block => !pred block := by
  rw [removeIf_eq trailing, removeRange]
  show blocks.queue.take _ ++ blocks.queue.drop _ = _
  rw [List.drop_length, List.append_nil]
  conv_lhs =>
    arg 2
    rw [trailing.filter_append]
  exact List.take_left

theorem Accounted.removeIf {pred : Block → Bool}
    {blocks : SizedBlockQueue Block} (accounted : Accounted blocks)
    (trailing : Trailing pred blocks.queue) :
    Accounted (blocks.removeIf pred).2 := by
  rw [removeIf_eq trailing]
  exact accounted.removeRange (List.length_filter_le _ _)

theorem Accounted.dequeue {first : Block} {blocks blocks' : SizedBlockQueue Block}
    (accounted : Accounted blocks)
    (dequeued : blocks.dequeue = some (first, blocks')) :
    Accounted blocks' := by
  unfold SizedBlockQueue.dequeue at dequeued
  split at dequeued
  next => cases dequeued
  next first rest whole =>
      cases dequeued
      show blocks.size - sizeOf first = total rest
      rw [accounted, whole, total_cons]
      ring

theorem Accounted.dequeueMultiple {count : Nat} {removed : List Block}
    {blocks blocks' : SizedBlockQueue Block} (accounted : Accounted blocks)
    (dequeued : blocks.dequeueMultiple count = some (removed, blocks')) :
    Accounted blocks' := by
  unfold SizedBlockQueue.dequeueMultiple at dequeued
  split at dequeued
  next enough =>
      have left := accounted.removeRange (Nat.zero_le count)
      rw [Option.some.inj dequeued] at left
      exact left
  next => cases dequeued

theorem Accounted.replace {hash : H256} {block : Block}
    {blocks : SizedBlockQueue Block} (accounted : Accounted blocks) :
    Accounted (blocks.replace hash block).2 := by
  have parts := List.takeWhile_append_dropWhile
    (p := fun block => !sha3UnclesEquals hash block) (l := blocks.queue)
  unfold SizedBlockQueue.replace
  simp only
  split
  next => exact accounted
  next found rest behind =>
      rw [behind] at parts
      show blocks.size - sizeOf found + sizeOf block = total (_ ++ _)
      rw [accounted]
      conv_lhs =>
        rw [← parts]
      simp only [total_append, total_cons]
      ring

/-! ## Runs -/

theorem step_accounted {blocks blocks' : SizedBlockQueue Block}
    {call : Call Block} (accounted : Accounted blocks)
    (orderly : Orderly blocks call)
    (stepped : blocks.step call = some blocks') : Accounted blocks' := by
  cases call with
  | enqueue block =>
      cases stepped
      show blocks.size + sizeOf block = total (_ ++ _)
      rw [accounted]
      simp
  | dequeue =>
      obtain ⟨performed, mapped, rfl⟩ := Option.map_eq_some_iff.mp stepped
      obtain ⟨result, dequeued, rfl⟩ := Option.map_eq_some_iff.mp mapped
      exact accounted.dequeue dequeued
  | dequeueMultiple count =>
      obtain ⟨performed, mapped, rfl⟩ := Option.map_eq_some_iff.mp stepped
      obtain ⟨result, dequeued, rfl⟩ := Option.map_eq_some_iff.mp mapped
      exact accounted.dequeueMultiple dequeued
  | remove hash =>
      cases stepped
      exact accounted.removeIf orderly
  | removeIf pred =>
      cases stepped
      exact accounted.removeIf orderly
  | replace hash block =>
      cases stepped
      exact accounted.replace
  | clear =>
      cases stepped
      rfl

omit [QueuedBlock Block] in
theorem isEmpty_filter (pred : Block → Bool) (queue : List Block) :
    (!(queue.filter pred).isEmpty) = queue.any pred := by
  induction queue with
  | nil => rfl
  | cons first rest induction =>
      cases test : pred first with
      | false => simpa [test] using induction
      | true => simp [test]

omit [QueuedBlock Block] in
theorem any_eq_false {pred : Block → Bool} {queue : List Block} :
    queue.any pred = false ↔
      queue.dropWhile (fun block => !pred block) = [] := by
  rw [List.dropWhile_eq_nil_iff, List.any_eq_false]
  simp

theorem complies {blocks : SizedBlockQueue Block} {call : Call Block}
    (orderly : Orderly blocks call) : Complies blocks call := by
  cases call with
  | enqueue block => rfl
  | dequeue =>
      unfold Complies perform dequeue intended
      cases blocks.queue with
      | nil => rfl
      | cons first rest => rfl
  | dequeueMultiple count =>
      by_cases enough : count ≤ blocks.queue.length
      · simp [Complies, perform, dequeueMultiple, intended, enough,
          removeRange]
      · simp [Complies, perform, dequeueMultiple, intended, enough]
  | remove hash =>
      apply congrArg some
      apply Prod.ext
      · show Answer.flag (!(blocks.removeIf _).1.isEmpty) = _
        rw [fst_removeIf orderly, isEmpty_filter]
      · exact queue_removeIf orderly
  | removeIf pred =>
      apply congrArg some
      apply Prod.ext
      · exact congrArg Answer.blocks (fst_removeIf orderly)
      · exact queue_removeIf orderly
  | replace hash block =>
      cases behind : blocks.queue.dropWhile
          fun block => !sha3UnclesEquals hash block with
      | nil =>
          have none := any_eq_false.mpr behind
          simp [Complies, perform, replace, intended, behind, none]
      | cons first rest =>
          have some : blocks.queue.any (sha3UnclesEquals hash) = true := by
            apply Bool.eq_true_of_not_eq_false
            intro none
            rw [any_eq_false.mp none] at behind
            cases behind
          simp [Complies, perform, replace, intended, behind, some]
  | clear => rfl

/-- As long as the blocks to be removed stand behind all others, the size is
that of the blocks in the queue, and every call does what it should. -/
theorem Orderly.accounted {calls front back : List (Call Block)}
    {blocks : SizedBlockQueue Block}
    (orderly : Runs.Throughout step Orderly {} calls)
    (split : calls = front ++ back)
    (ran : Runs.run step {} front = some blocks) :
    Accounted blocks ∧
      ∀ call rest, back = call :: rest → Complies blocks call := by
  subst split
  constructor
  · exact orderly.before.keeps step_accounted rfl ran
  · intro call rest next
    subst next
    exact complies (orderly.here ran)

/-- A block whose data are in memory. -/
structure VerifiedBlock where
  info : BlockQueue.Header
  blockData : Bytes
deriving DecidableEq

instance : QueuedBlock VerifiedBlock where
  blockData := VerifiedBlock.blockData
  sha3Uncles block := block.info.sha3Uncles
  moved block := { block with blockData := [] }
  blockData_moved _ := rfl

def blockSample (uncles : Nat) (blockData : Bytes) : VerifiedBlock where
  info := {
    hash := hashOfNat uncles
    parentHash := hashOfNat 0
    sha3Uncles := hashOfNat uncles }
  blockData

def callsSample (uncles : Nat) : List (Call VerifiedBlock) :=
  [.enqueue (blockSample 1 [5]), .enqueue (blockSample 2 [6, 7]),
    .remove (hashOfNat uncles)]

/-- The second of two blocks is removed. -/
theorem Orderly.accounted_sample :
    Accounted (⟨[blockSample 1 [5]], 1⟩ : SizedBlockQueue VerifiedBlock) := by
  have orderly : Runs.Throughout step Orderly {} (callsSample 2) := by
    apply Runs.Throughout.cons rfl trivial
    apply Runs.Throughout.cons rfl trivial
    refine Runs.Throughout.cons rfl ?_ trivial
    show Trailing _ [blockSample 1 [5], blockSample 2 [6, 7]]
    decide +kernel
  exact (Orderly.accounted orderly (List.append_nil _).symm
    (by decide +kernel)).1

/-- The first of two blocks is removed: the second one stays and is returned
without its bytes, and the bytes of the first one go on being counted. -/
theorem removeIf_sample :
    ∃ blocks blocks' : SizedBlockQueue VerifiedBlock,
      Runs.run step {} ((callsSample 1).take 2) = some blocks ∧
      ¬ Complies blocks (.removeIf (sha3UnclesEquals (hashOfNat 1))) ∧
      Runs.run step {} (callsSample 1) = some blocks' ∧
      ¬ Accounted blocks' := by
  refine ⟨⟨[blockSample 1 [5], blockSample 2 [6, 7]], 3⟩,
    ⟨[blockSample 2 [6, 7]], 3⟩, ?_, ?_, ?_, ?_⟩
  · decide +kernel
  · decide +kernel
  · decide +kernel
  · decide +kernel

end SizedBlockQueue

/-! ## The maps -/

/-- The entries of a multimap, in the order of an iteration. -/
structure SizedBlockMap (Key : Type) where
  map : List (Key × H256 × Bytes) := []
  size : BitVec 64 := 0

namespace SizedBlockMap

variable {Key : Type} (less : Key → Key → Bool)

/-- What a vector holds after it was moved elsewhere. -/
def movedBytes (_ : Bytes) : Bytes := []

/-- The place behind all entries that are not greater. -/
def upperBound (key : Key) (map : List (Key × H256 × Bytes)) : Nat :=
  (map.takeWhile fun entry => !less key entry.1).length

/-- The place in front of all entries that are not smaller. -/
def lowerBound (key : Key) (map : List (Key × H256 × Bytes)) : Nat :=
  (map.takeWhile fun entry => less entry.1 key).length

def insert (key : Key) (hash : H256) (blockData : Bytes)
    (blocks : SizedBlockMap Key) : SizedBlockMap Key :=
  let hashAndBlock := (hash, blockData)
  let blockData := movedBytes blockData
  { map := blocks.map.insertIdx (upperBound less key blocks.map)
      (key, hashAndBlock)
    size := blocks.size + BitVec.ofNat 64 blockData.length }

/-- `removeRange`, with the places that the two iterators point to. -/
def removeRange (first last : Nat) (blocks : SizedBlockMap Key) :
    List (H256 × Bytes) × SizedBlockMap Key :=
  let removed := ((blocks.map.take last).drop first).map Prod.snd
  let removedSize := removed.foldl
    (fun size block => size + BitVec.ofNat 64 block.2.length) 0
  (removed,
    { map := blocks.map.take first ++ blocks.map.drop last
      size := blocks.size - removedSize })

def removeByKeyEqual (key : Key) (blocks : SizedBlockMap Key) :
    List (H256 × Bytes) × SizedBlockMap Key :=
  blocks.removeRange (lowerBound less key blocks.map)
    (upperBound less key blocks.map)

def removeByKeyNotGreater (key : Key) (blocks : SizedBlockMap Key) :
    List (H256 × Bytes) × SizedBlockMap Key :=
  blocks.removeRange 0 (upperBound less key blocks.map)

inductive Call (Key : Type) where
  | insert (key : Key) (hash : H256) (blockData : Bytes)
  | removeByKeyEqual (key : Key)
  | removeByKeyNotGreater (key : Key)
  | clear

def step (blocks : SizedBlockMap Key) : Call Key → SizedBlockMap Key
  | .insert key hash blockData => blocks.insert less key hash blockData
  | .removeByKeyEqual key => (blocks.removeByKeyEqual less key).2
  | .removeByKeyNotGreater key => (blocks.removeByKeyNotGreater less key).2
  | .clear => {}

/-- The number of the bytes in the map. -/
def stored (blocks : SizedBlockMap Key) : Nat :=
  (blocks.map.map fun entry => entry.2.2.length).sum

/-- Only an insertion brings data, and it brings none. -/
def Call.Dataless : Call Key → Prop
  | .insert _ _ blockData => blockData = []
  | _ => True

/-- A map with nothing to count. -/
structure Hollow (blocks : SizedBlockMap Key) : Prop where
  size : blocks.size = 0
  dataless : ∀ entry ∈ blocks.map, entry.2.2 = []

variable {less} {blocks : SizedBlockMap Key}

theorem Hollow.stored (hollow : Hollow blocks) : blocks.stored = 0 := by
  apply List.sum_eq_zero
  intro size member
  obtain ⟨entry, inside, rfl⟩ := List.mem_map.mp member
  rw [hollow.dataless entry inside]
  rfl

theorem foldl_dataless {removed : List (H256 × Bytes)}
    (dataless : ∀ block ∈ removed, block.2 = []) :
    removed.foldl (fun size block => size + BitVec.ofNat 64 block.2.length)
      (0 : BitVec 64) = 0 := by
  induction removed with
  | nil => rfl
  | cons block removed induction =>
      rw [List.foldl_cons, dataless block List.mem_cons_self]
      exact induction fun block member =>
        dataless block (List.mem_cons_of_mem _ member)

theorem Hollow.removeRange (hollow : Hollow blocks) (first last : Nat) :
    Hollow (blocks.removeRange first last).2 := by
  constructor
  · show blocks.size - _ = 0
    rw [hollow.size, foldl_dataless]
    · rfl
    · intro block member
      obtain ⟨entry, inside, rfl⟩ := List.mem_map.mp member
      exact hollow.dataless entry
        (List.mem_of_mem_take (List.mem_of_mem_drop inside))
  · intro entry member
    rcases List.mem_append.mp member with before | behind
    · exact hollow.dataless entry (List.mem_of_mem_take before)
    · exact hollow.dataless entry (List.mem_of_mem_drop behind)

theorem Hollow.step {call : Call Key} (hollow : Hollow blocks)
    (dataless : call.Dataless) : Hollow (blocks.step less call) := by
  cases call with
  | insert key hash blockData =>
      constructor
      · show blocks.size + 0 = 0
        rw [hollow.size]
        rfl
      · intro entry member
        rcases List.eq_or_mem_of_mem_insertIdx member with rfl | old
        · exact dataless
        · exact hollow.dataless entry old
  | removeByKeyEqual key => exact hollow.removeRange _ _
  | removeByKeyNotGreater key => exact hollow.removeRange _ _
  | clear =>
      constructor
      · rfl
      · intro entry member
        cases member

/-- An insertion changes the number of the bytes, and not the size. -/
theorem stored_insert (key : Key) (hash : H256) (blockData : Bytes) :
    (blocks.insert less key hash blockData).stored =
      blockData.length + blocks.stored := by
  have inRange : upperBound less key blocks.map ≤ blocks.map.length :=
    (List.takeWhile_sublist _).length_le
  have permuted := List.perm_insertIdx (key, hash, blockData) blocks.map inRange
  exact (permuted.map fun entry => entry.2.2.length).sum_eq

theorem size_insert (key : Key) (hash : H256) (blockData : Bytes) :
    (blocks.insert less key hash blockData).size = blocks.size :=
  BitVec.add_zero _

end SizedBlockMap

/-- The two maps of the block queue. -/
structure UnknownBlocks where
  future : SizedBlockMap Int := {}
  unknown : SizedBlockMap H256 := {}

namespace UnknownBlocks

def c_maxUnknownCount : Nat := 100000

def c_maxUnknownSize : Nat := 512 * 1024 * 1024

def unknownSize (blocks : UnknownBlocks) : BitVec 64 :=
  blocks.future.size + blocks.unknown.size

def unknownCount (blocks : UnknownBlocks) : Nat :=
  blocks.future.map.length + blocks.unknown.map.length

def unknownFull (blocks : UnknownBlocks) : Bool :=
  blocks.unknownSize.toNat > c_maxUnknownSize ||
    blocks.unknownCount > c_maxUnknownCount

/-- A call of one of the maps. -/
inductive Call where
  | future (call : SizedBlockMap.Call Int)
  | unknown (call : SizedBlockMap.Call H256)

def step (blocks : UnknownBlocks) : Call → UnknownBlocks
  | .future call => { blocks with
      future := blocks.future.step (fun first second => first < second) call }
  | .unknown call => { blocks with
      unknown := blocks.unknown.step
        (fun first second => first.val < second.val) call }

def run (calls : List Call) : UnknownBlocks := calls.foldl step {}

def Call.Dataless : Call → Prop
  | .future call => call.Dataless
  | .unknown call => call.Dataless

/-- The sizes are those of what is stored, and the maps are only full when
they have more than they may. -/
structure Counted (blocks : UnknownBlocks) : Prop where
  future : blocks.future.size.toNat = blocks.future.stored
  unknown : blocks.unknown.size.toNat = blocks.unknown.stored
  full : blocks.unknownFull →
    blocks.future.stored + blocks.unknown.stored > c_maxUnknownSize ∨
      blocks.unknownCount > c_maxUnknownCount

/-- Neither map has anything to count. -/
def Hollow (blocks : UnknownBlocks) : Prop :=
  blocks.future.Hollow ∧ blocks.unknown.Hollow

variable {blocks : UnknownBlocks}

theorem Hollow.counted (hollow : Hollow blocks) : Counted blocks := by
  obtain ⟨future, unknown⟩ := hollow
  constructor
  · rw [future.size, future.stored]
    rfl
  · rw [unknown.size, unknown.stored]
    rfl
  · intro full
    have small : blocks.unknownSize = 0 := by
      rw [unknownSize, future.size, unknown.size]
      rfl
    rw [unknownFull, small] at full
    right
    simpa using full

theorem Hollow.step {call : Call} (hollow : Hollow blocks)
    (dataless : call.Dataless) : Hollow (blocks.step call) := by
  obtain ⟨future, unknown⟩ := hollow
  cases call with
  | future call => exact ⟨future.step dataless, unknown⟩
  | unknown call => exact ⟨future, unknown.step dataless⟩

theorem hollow_run {calls : List Call}
    (dataless : ∀ call ∈ calls, call.Dataless) : Hollow (run calls) := by
  induction calls using List.reverseRecOn with
  | nil =>
      constructor
      · exact ⟨rfl, nofun⟩
      · exact ⟨rfl, nofun⟩
  | append_singleton calls call induction =>
      rw [run, List.foldl_append]
      apply Hollow.step
      · exact induction fun call member =>
          dataless call (List.mem_append_left _ member)
      · exact dataless call (by simp)

/-- A map does not count right before and after it gets data. -/
theorem dataless_of_counted {call : Call} (before : Counted blocks)
    (after : Counted (blocks.step call)) : call.Dataless := by
  cases call with
  | future call =>
      cases call with
      | insert key hash blockData =>
          have counts := after.future
          simp only [step, SizedBlockMap.step, SizedBlockMap.stored_insert,
            SizedBlockMap.size_insert, before.future] at counts
          exact List.eq_nil_of_length_eq_zero (by omega)
      | removeByKeyEqual key => trivial
      | removeByKeyNotGreater key => trivial
      | clear => trivial
  | unknown call =>
      cases call with
      | insert key hash blockData =>
          have counts := after.unknown
          simp only [step, SizedBlockMap.step, SizedBlockMap.stored_insert,
            SizedBlockMap.size_insert, before.unknown] at counts
          exact List.eq_nil_of_length_eq_zero (by omega)
      | removeByKeyEqual key => trivial
      | removeByKeyNotGreater key => trivial
      | clear => trivial

/-- The sizes are right throughout a run if and only if no block in it has any
data. -/
theorem counted_iff (calls : List Call) :
    (∀ front back, calls = front ++ back → Counted (run front)) ↔
      ∀ call ∈ calls, call.Dataless := by
  constructor
  · intro counted call member
    obtain ⟨front, back, rfl⟩ := List.append_of_mem member
    apply dataless_of_counted (counted front (call :: back) rfl)
    have after := counted (front ++ [call]) back (by simp)
    rw [run, List.foldl_append] at after
    exact after
  · intro dataless front back split
    subst split
    apply Hollow.counted
    apply hollow_run
    intro call member
    exact dataless call (List.mem_append_left _ member)

/-- One byte comes and goes, and nothing is too much. -/
theorem unknownFull_sample :
    let calls := [Call.unknown (.insert (hashOfNat 1) (hashOfNat 2) [7]),
      .unknown (.removeByKeyEqual (hashOfNat 1))]
    (run calls).unknown.size.toNat = 2 ^ 64 - 1 ∧
      (run calls).unknown.map = [] ∧ (run calls).unknownFull = true ∧
      ¬ Counted (run calls) := by
  refine ⟨?_, ?_, ?_, ?_⟩
  · decide +kernel
  · decide +kernel
  · decide +kernel
  · intro counted
    exact absurd counted.unknown (by decide +kernel)

end UnknownBlocks

end Aecmio
