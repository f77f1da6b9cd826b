import Aecmio.Queue.TransactionQueue

/-!
# The block queue

Blocks whose parents are known wait to be verified.  Verifiers take them in
order and report in any order, with no lock held in between; `m_verifying`
brings their results back into order.  A block that is being verified is kept
there as a header whose uncle hash is the hash of the block.

A call holds the locks as long as it works on the queue, but for a verifier
that takes a block: it only asks for the lock of the three queues.  It may
come between two purges of one `doneDrain`; elsewhere its place inside a call
makes no difference, since a call only appends to `m_unverified`.
-/

namespace Aecmio

namespace BlockQueue

/-- What the queue reads of a block header. -/
structure Header where
  hash : H256
  parentHash : H256
  sha3Uncles : H256
  difficulty : U256 := 0
  timestamp : Int := -1
deriving DecidableEq

/-- The bytes of a block, given by the header in them; `none` is the empty
vector. -/
abbrev BlockData := Option Header

structure UnverifiedBlock where
  hash : H256
  parentHash : H256
  blockData : BlockData
deriving DecidableEq

structure VerifiedBlock where
  /-- `verified.info`. -/
  info : Header
  blockData : BlockData := none
deriving DecidableEq

/-- What is left of a block that was moved elsewhere; a header has no move
operations and is copied. -/
def UnverifiedBlock.moved (block : UnverifiedBlock) : UnverifiedBlock :=
  { block with blockData := none }

@[inherit_doc UnverifiedBlock.moved]
def VerifiedBlock.moved (block : VerifiedBlock) : VerifiedBlock :=
  { block with blockData := none }

/-- The hash of a block in `m_verifying`: as long as the bytes are missing it
is in the field of the uncle hash. -/
def VerifiedBlock.slot (block : VerifiedBlock) : H256 :=
  if block.blockData.isSome then block.info.hash else block.info.sha3Uncles

/-! ## The containers -/

/-- `SizedBlockQueue::removeIf`: `std::remove_if` moves what stays to the
front, and the elements behind it are returned. -/
def removeIf {Block : Type} (moved : Block → Block) (pred : Block → Bool)
    (queue : List Block) : List Block × List Block :=
  let kept := queue.filter fun block => !pred block
  (kept, (queue.drop kept.length).map fun block =>
    if pred block then block else moved block)

/-- `SizedBlockQueue::replace`. -/
def replace (hash : H256) (block : VerifiedBlock) :
    List VerifiedBlock → List VerifiedBlock
  | [] => []
  | first :: rest =>
      if first.info.sha3Uncles = hash then block :: rest
      else first :: replace hash block rest

/-- The entries of a `std::multimap`, in the order of an iteration. -/
abbrev SizedBlockMap (Key : Type) := List (Key × H256 × BlockData)

namespace SizedBlockMap

variable {Key : Type}

/-- A new entry goes behind those with the same key. -/
def insert (less : Key → Key → Bool) (key : Key) (hash : H256)
    (blockData : BlockData) (map : SizedBlockMap Key) : SizedBlockMap Key :=
  (map.takeWhile fun entry => !less key entry.1) ++ (key, hash, blockData) ::
    map.dropWhile fun entry => !less key entry.1

/-- The result of `removeByKeyEqual`. -/
def byKeyEqual [DecidableEq Key] (key : Key) (map : SizedBlockMap Key) :
    List (H256 × BlockData) :=
  (map.filter fun entry => entry.1 = key).map Prod.snd

/-- What `removeByKeyEqual` leaves. -/
def eraseKey [DecidableEq Key] (key : Key) (map : SizedBlockMap Key) :
    SizedBlockMap Key :=
  map.filter fun entry => entry.1 ≠ key

end SizedBlockMap

/-- How far a block has come. -/
inductive Stage where
  /-- It is in `m_unverified`. -/
  | waiting
  /-- A verifier has taken it. -/
  | working
  /-- Its verifier has reported success, or failure. -/
  | succeeded
  | failed
  /-- It succeeded and left the head of `m_verifying`; `badParent` says
  whether its parent was then in `m_knownBad`. -/
  | judged (badParent : Bool)
deriving DecidableEq

structure Record where
  block : UnverifiedBlock
  stage : Stage
deriving DecidableEq

/-- The first record of a hash at one stage goes to the next one. -/
def advance (hash : H256) (before after : Stage) : List Record → List Record
  | [] => []
  | record :: rest =>
      if record.block.hash = hash ∧ record.stage = before then
        { record with stage := after } :: rest
      else record :: advance hash before after rest

/-- What happened in a run without `clear` and without a purge; no function
of the queue reads it. -/
structure History where
  /-- The blocks in the order in which they went into `m_unverified`. -/
  records : List Record := []
  /-- The blocks in the order in which they went into `m_verified`. -/
  appended : List VerifiedBlock := []

def History.advance (hash : H256) (before after : Stage) (history : History) :
    History :=
  { history with
    records := BlockQueue.advance hash before after history.records }

end BlockQueue

open BlockQueue (Header BlockData UnverifiedBlock VerifiedBlock removeIf
  replace SizedBlockMap)

structure BlockQueue where
  drainingSet : Finset H256 := ∅
  readySet : Finset H256 := ∅
  unknownSet : Finset H256 := ∅
  unknown : SizedBlockMap H256 := []
  knownBad : Finset H256 := ∅
  future : SizedBlockMap Int := []
  verified : List VerifiedBlock := []
  verifying : List VerifiedBlock := []
  unverified : List UnverifiedBlock := []
  difficulty : U256 := 0
  drainingDifficulty : U256 := 0
  /-- The blocks that verifiers have taken and not reported. -/
  working : List UnverifiedBlock := []
  history : BlockQueue.History := {}

namespace BlockQueue

def knownCount (queue : BlockQueue) : Nat :=
  queue.verified.length + queue.verifying.length + queue.unverified.length

/-- `invariants`. -/
def invariants (queue : BlockQueue) : Bool :=
  queue.readySet.card = queue.knownCount

/-- `clear`; the verifiers go on with what they have taken. -/
def clear (queue : BlockQueue) : BlockQueue :=
  { knownBad := queue.knownBad
    working := queue.working
    history := queue.history }

/-- `m_unverified.enqueue`. -/
def enqueue (queue : BlockQueue) (block : UnverifiedBlock) : BlockQueue :=
  { queue with
    unverified := queue.unverified ++ [block]
    history := { queue.history with
      records := queue.history.records ++ [⟨block, .waiting⟩] } }

/-! ## Verifiers -/

/-- A verifier takes a block; `placeholder` is the hash of the header that
stands for it in `m_verifying`. -/
def take (placeholder : H256) (queue : BlockQueue) : BlockQueue :=
  match queue.unverified with
  | [] => queue
  | work :: rest =>
      { queue with
        unverified := rest
        verifying := queue.verifying ++ [{ info := {
          hash := placeholder
          parentHash := work.parentHash
          sha3Uncles := work.hash } }]
        working := queue.working ++ [work]
        history := queue.history.advance work.hash .waiting .working }

/-- A finished block that left the head of `m_verifying`. -/
def judge (queue : BlockQueue) (block : VerifiedBlock) : BlockQueue :=
  let bad := decide (block.info.parentHash ∈ queue.knownBad)
  let history :=
    queue.history.advance block.info.hash .succeeded (.judged bad)
  let queue := { queue with history }
  if bad then { queue with
    readySet := queue.readySet.erase block.info.hash
    knownBad := insert block.info.hash queue.knownBad }
  else { queue with
    verified := queue.verified ++ [block]
    history := { queue.history with
      appended := queue.history.appended ++ [block] } }

/-- The loop of `drainVerified_WITH_BOTH_LOCKS` over what is in
`m_verifying`. -/
def drainLoop (queue : BlockQueue) : List VerifiedBlock → BlockQueue
  | [] => { queue with verifying := [] }
  | block :: rest =>
      if block.blockData.isSome then (queue.judge block).drainLoop rest
      else { queue with verifying := block :: rest }

/-- `drainVerified_WITH_BOTH_LOCKS`. -/
def drainVerified (queue : BlockQueue) : BlockQueue :=
  queue.drainLoop queue.verifying

/-- The report of an exception. -/
def reportBad (queue : BlockQueue) (work : UnverifiedBlock) : BlockQueue :=
  drainVerified { queue with
    readySet := queue.readySet.erase work.hash
    knownBad := insert work.hash queue.knownBad
    verifying := (removeIf VerifiedBlock.moved
      (fun block => block.info.sha3Uncles = work.hash) queue.verifying).1 }

/-- The report of a block that was verified. -/
def reportGood (queue : BlockQueue) (work : UnverifiedBlock)
    (result : VerifiedBlock) : BlockQueue :=
  match queue.verifying with
  | [] => queue
  | first :: rest =>
      if first.info.sha3Uncles = work.hash then
        drainVerified ({ queue with verifying := rest }.judge result)
      else { queue with verifying := replace work.hash result queue.verifying }

/-- A verifier reports on the block with the given place among those that are
being verified.  Verification fails on missing bytes. -/
def finish (index : Nat) (success : Bool) (queue : BlockQueue) : BlockQueue :=
  match queue.working[index]? with
  | none => queue
  | some work =>
      let queue := { queue with working := queue.working.eraseIdx index }
      let note (stage : Stage) : BlockQueue := { queue with
        history := queue.history.advance work.hash .working stage }
      match work.blockData, success with
      | some info, true => (note .succeeded).reportGood work
          { info, blockData := some info }
      | _, _ => (note .failed).reportBad work

/-! ## Bad blocks -/

/-- The loop of `collectUnknownBad_WITH_BOTH_LOCKS`; each round takes one
entry from `badQueue`, and the entries it adds are gone from `m_unknown`. -/
def collectLoop : Nat → List H256 → BlockQueue → BlockQueue
  | 0, _, queue => queue
  | _ + 1, [], queue => queue
  | fuel + 1, bad :: badQueue, queue =>
      let removed := queue.unknown.byKeyEqual bad
      collectLoop fuel (badQueue ++ removed.map Prod.fst) { queue with
        unknown := queue.unknown.eraseKey bad
        unknownSet := removed.foldl (fun set newBad => set.erase newBad.1)
          queue.unknownSet
        knownBad := removed.foldl (fun set newBad => insert newBad.1 set)
          queue.knownBad }

/-- `collectUnknownBad_WITH_BOTH_LOCKS`. -/
def collectUnknownBad (queue : BlockQueue) (bad : H256) : BlockQueue :=
  collectLoop (queue.unknown.length + 1) [bad] queue

/-- What is done with the hash of each removed block. -/
def markBad (queue : BlockQueue) (hash : H256) : BlockQueue :=
  collectUnknownBad { queue with
    knownBad := insert hash queue.knownBad
    readySet := queue.readySet.erase hash } hash

/-- The test on `m_verified`. -/
def badVerified (queue : BlockQueue) (block : VerifiedBlock) : Bool :=
  block.info.parentHash ∈ queue.knownBad ∨ block.info.hash ∈ queue.knownBad

/-- The test on `m_unverified`. -/
def badUnverified (queue : BlockQueue) (block : UnverifiedBlock) : Bool :=
  block.parentHash ∈ queue.knownBad ∨ block.hash ∈ queue.knownBad

/-- The test on `m_verifying`. -/
def badVerifying (queue : BlockQueue) (block : VerifiedBlock) : Bool :=
  block.info.parentHash ∈ queue.knownBad ∨
    block.info.sha3Uncles ∈ queue.knownBad

def purgeVerified (queue : BlockQueue) : BlockQueue :=
  let (kept, removed) :=
    removeIf VerifiedBlock.moved queue.badVerified queue.verified
  (removed.map fun block => block.info.hash).foldl markBad
    { queue with verified := kept }

def purgeUnverified (queue : BlockQueue) : BlockQueue :=
  let (kept, removed) :=
    removeIf UnverifiedBlock.moved queue.badUnverified queue.unverified
  (removed.map fun block => block.hash).foldl markBad
    { queue with unverified := kept }

def purgeVerifying (queue : BlockQueue) : BlockQueue :=
  let (kept, removed) :=
    removeIf VerifiedBlock.moved queue.badVerifying queue.verifying
  (removed.map VerifiedBlock.slot).foldl markBad
    { queue with verifying := kept }

/-- One round of the loop of `updateBad_WITH_LOCK`. -/
def purgeRound (queue : BlockQueue) : BlockQueue :=
  queue.purgeVerified.purgeUnverified.purgeVerifying

/-- The loop goes on as long as a round removes a block. -/
def purgeLoop : Nat → BlockQueue → BlockQueue
  | 0, queue => queue
  | fuel + 1, queue =>
      if queue.purgeRound.knownCount < queue.knownCount then
        purgeLoop fuel queue.purgeRound
      else queue.purgeRound

/-- `updateBad_WITH_LOCK`. -/
def updateBad (queue : BlockQueue) (bad : H256) : BlockQueue :=
  purgeLoop (queue.knownCount + 1) (queue.collectUnknownBad bad)

/-! ## The interface -/

/-- The loop of `noteReady_WITH_LOCK`, with the same bound. -/
def readyLoop : Nat → List H256 → BlockQueue → BlockQueue
  | 0, _, queue => queue
  | _ + 1, [], queue => queue
  | fuel + 1, parent :: goodQueue, queue =>
      let removed := queue.unknown.byKeyEqual parent
      readyLoop fuel (goodQueue ++ removed.map Prod.fst) (removed.foldl
        (fun queue newReady =>
          { queue.enqueue ⟨newReady.1, parent, newReady.2⟩ with
            unknownSet := queue.unknownSet.erase newReady.1
            readySet := insert newReady.1 queue.readySet })
        { queue with unknown := queue.unknown.eraseKey parent })

/-- `noteReady_WITH_LOCK`. -/
def noteReady (good : H256) (queue : BlockQueue) : BlockQueue :=
  readyLoop (queue.unknown.length + 1) [good] queue

/-- The loop of `retryAllUnknown`; each round removes the first key. -/
def retryLoop : Nat → BlockQueue → BlockQueue
  | 0, queue => queue
  | fuel + 1, queue =>
      match queue.unknown with
      | [] => queue
      | (parent, _) :: _ =>
          retryLoop fuel ((queue.unknown.byKeyEqual parent).foldl
            (fun queue newReady =>
              { queue.enqueue ⟨newReady.1, parent, newReady.2⟩ with
                unknownSet := queue.unknownSet.erase newReady.1
                readySet := insert newReady.1 queue.readySet })
            { queue with unknown := queue.unknown.eraseKey parent })

def retryAllUnknown (queue : BlockQueue) : BlockQueue :=
  retryLoop queue.unknown.length queue

/-- A block that is imported, with what is asked of the chain and the
clock. -/
structure Import where
  block : Header
  isOurs : Bool := false
  /-- `verifyBlock` with `PostGenesis` does not throw. -/
  wellFormed : Bool := true
  isKnown : H256 → Bool
  utcTime : Int := 0

/-- Nothing is known of a block with this hash. -/
def unknownParent (queue : BlockQueue) (isKnown : H256 → Bool)
    (parentHash : H256) : Bool :=
  parentHash ∉ queue.readySet ∧ parentHash ∉ queue.drainingSet ∧
    !isKnown parentHash

/-- `import`. -/
def import_ (call : Import) (queue : BlockQueue) :
    ImportResult × BlockQueue :=
  let block := call.block
  if block.hash ∈ queue.readySet ∨ block.hash ∈ queue.drainingSet ∨
      block.hash ∈ queue.unknownSet ∨ block.hash ∈ queue.knownBad then
    (.alreadyKnown, queue)
  else if !call.wellFormed then (.malformed, queue)
  else if call.isKnown block.hash then (.alreadyInChain, queue)
  else if call.utcTime < block.timestamp ∧ !call.isOurs then
    (if queue.unknownParent call.isKnown block.parentHash then
        .futureTimeUnknown
      else .futureTimeKnown,
      { queue with
        future := queue.future.insert (fun first second => first < second)
          block.timestamp block.hash (some block)
        difficulty := queue.difficulty + block.difficulty })
  else if block.parentHash ∈ queue.knownBad then
    (.badChain, updateBad
      { queue with knownBad := insert block.hash queue.knownBad } block.hash)
  else if queue.unknownParent call.isKnown block.parentHash then
    (.unknownParent, { queue with
      unknown := queue.unknown.insert
        (fun first second => first.val < second.val)
        block.parentHash block.hash (some block)
      unknownSet := insert block.hash queue.unknownSet
      difficulty := queue.difficulty + block.difficulty })
  else
    (.success, noteReady block.hash
      { queue.enqueue ⟨block.hash, block.parentHash, some block⟩ with
        readySet := insert block.hash queue.readySet
        difficulty := queue.difficulty + block.difficulty })

/-- The blocks that `tick` imports, and what is left before it does. -/
def tick (utcTime : Int) (queue : BlockQueue) :
    List (H256 × BlockData) × BlockQueue :=
  ((queue.future.filter fun entry => entry.1 ≤ utcTime).map Prod.snd,
    { queue with
      future := queue.future.filter fun entry => ¬ entry.1 ≤ utcTime })

def drain (max : Nat) (queue : BlockQueue) :
    List VerifiedBlock × BlockQueue :=
  if queue.drainingSet = ∅ then
    let out := queue.verified.take max
    (out, { queue with
      verified := queue.verified.drop max
      drainingSet := out.foldl (fun set block => insert block.info.hash set) ∅
      drainingDifficulty :=
        (out.map fun block => block.info.difficulty).sum
      readySet := out.foldl (fun set block => set.erase block.info.hash)
        queue.readySet })
  else ([], queue)

/-- What `doneDrain` does before the purges. -/
def endDrain (bad : List (List H256 × H256)) (queue : BlockQueue) :
    BlockQueue :=
  { queue with
    drainingSet := ∅
    difficulty := queue.difficulty - queue.drainingDifficulty
    drainingDifficulty := 0
    knownBad := bad.foldl (fun set entry => insert entry.2 set)
      queue.knownBad }

/-- `doneDrain`; before each purge verifiers may take blocks, whose
placeholders are given. -/
def doneDrain (bad : List (List H256 × H256)) (queue : BlockQueue) :
    BlockQueue :=
  bad.foldl (fun queue entry =>
      (entry.1.foldl (fun queue placeholder => queue.take placeholder)
        queue).updateBad entry.2)
    (queue.endDrain bad)

/-- A step of the queue and its verifiers. -/
inductive Step where
  | import_ (call : Import)
  | tick (utcTime : Int)
  | drain (max : Nat)
  | doneDrain (bad : List (List H256 × H256))
  | noteReady (good : H256)
  | retryAllUnknown
  | clear
  | take (placeholder : H256)
  | finish (index : Nat) (success : Bool)

def step (queue : BlockQueue) : Step → BlockQueue
  | .import_ call => (queue.import_ call).2
  | .tick utcTime => (queue.tick utcTime).2
  | .drain max => (queue.drain max).2
  | .doneDrain bad => queue.doneDrain bad
  | .noteReady good => queue.noteReady good
  | .retryAllUnknown => queue.retryAllUnknown
  | .clear => queue.clear
  | .take placeholder => queue.take placeholder
  | .finish index success => queue.finish index success

def run (queue : BlockQueue) (steps : List Step) : BlockQueue :=
  steps.foldl step queue

/-! ## A sample -/

def headerSample (hash parentHash : Nat) : Header where
  hash := hashOfNat hash
  parentHash := hashOfNat parentHash
  sha3Uncles := hashOfNat 1000

/-- An import into a queue whose chain has the block with hash zero. -/
def importSample (hash parentHash : Nat) : Step :=
  .import_ { block := headerSample hash parentHash
             isOurs := true
             isKnown := fun known => known = hashOfNat 0 }

end BlockQueue

end Aecmio
