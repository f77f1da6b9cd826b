import Aecmio.Chain.Block

/-!
# The databases of the chain

`BlockChain` keeps every imported block with its number, its parent and its
total difficulty.  The block with the greatest total difficulty is the head;
an index from numbers to hashes, one from transactions to blocks and two
levels of bloom filters follow the chain of the head.  These three live in a
database and in a cache that is filled when they are read.

The number, the parent and the total difficulty of a hash never change, so
that their cache and that of the blocks make no difference and are left out.
-/

namespace Aecmio

/-- `FixedHash::contains`. -/
def FixedHash.contains {size : Nat} (first second : FixedHash size) : Bool :=
  List.zipWith (· &&& ·) first.val second.val = second.val

namespace BlockChain

def c_bloomIndexSize : Nat := 16

def c_bloomIndexLevels : Nat := 2

def c_invalidNumber : Nat := 2 ^ 32 - 1

/-- What is read of a block, with the hashes of its transactions. -/
structure Header where
  hash : H256
  parentHash : H256
  number : Nat
  gasUsed : U256 := 0
  logBloom : LogBloom := zeroHash 256
  author : Address := zeroHash 20
  transactions : List H256 := []
deriving DecidableEq

/-- `BlockDetails` without the children, which are only counted for the
log. -/
structure BlockDetails where
  number : Nat := c_invalidNumber
  totalDifficulty : U256 := -1
  parent : H256 := zeroHash 32
deriving DecidableEq

def BlockDetails.isNull (details : BlockDetails) : Bool :=
  details.number = c_invalidNumber

structure TransactionAddress where
  blockHash : H256 := zeroHash 32
  index : Nat := 0
deriving DecidableEq

/-- `BlocksBlooms`. -/
abbrev BlocksBlooms := Fin c_bloomIndexSize → LogBloom

/-- `NullBlocksBlooms`. -/
def nullBlocksBlooms : BlocksBlooms := fun _ => zeroHash 256

structure ImportRoute where
  deadBlocks : List H256 := []
  liveBlocks : List H256 := []
  goodTransactions : List H256
deriving DecidableEq

/-! ## Tables of the extras database -/

/-- A table and its cache. -/
structure Extras (Key Value : Type) where
  stored : Key → Option Value := fun _ => none
  cached : Key → Option Value := fun _ => none

namespace Extras

variable {Key Value : Type} [DecidableEq Key]

/-- What `queryExtras` finds. -/
def read (extras : Extras Key Value) (key : Key) : Option Value :=
  (extras.cached key).or (extras.stored key)

/-- `queryExtras`. -/
def query (key : Key) (extras : Extras Key Value) :
    Option Value × Extras Key Value :=
  match extras.cached key with
  | some value => (some value, extras)
  | none =>
      match extras.stored key with
      | none => (none, extras)
      | some value => (some value,
          { extras with cached := Function.update extras.cached key value })

/-- A value that is only put into the database. -/
def store (key : Key) (value : Value) (extras : Extras Key Value) :
    Extras Key Value :=
  { extras with stored := Function.update extras.stored key value }

/-- A value that is only put into the cache. -/
def cache (key : Key) (value : Value) (extras : Extras Key Value) :
    Extras Key Value :=
  { extras with cached := Function.update extras.cached key value }

/-- The cache loses some keys. -/
def forget (keys : List Key) (extras : Extras Key Value) :
    Extras Key Value :=
  { extras with
    cached := fun key => if key ∈ keys then none else extras.cached key }

theorem query_fst (key : Key) (extras : Extras Key Value) :
    (extras.query key).1 = extras.read key := by
  unfold query read
  cases cached : extras.cached key with
  | some value => rfl
  | none =>
      cases stored : extras.stored key with
      | none => rfl
      | some value => rfl

theorem query_stored (key : Key) (extras : Extras Key Value) :
    (extras.query key).2.stored = extras.stored := by
  unfold query
  split
  · rfl
  · split <;> rfl

theorem query_cached (key other : Key) (extras : Extras Key Value) :
    (extras.query key).2.cached other =
      if other = key then extras.read key else extras.cached other := by
  unfold query read
  by_cases same : other = key
  · rw [if_pos same, same]
    cases cached : extras.cached key with
    | some value => exact cached
    | none =>
        cases stored : extras.stored key with
        | none => exact cached
        | some value => exact Function.update_self _ _ _
  · rw [if_neg same]
    cases cached : extras.cached key with
    | some value => rfl
    | none =>
        cases stored : extras.stored key with
        | none => rfl
        | some value => exact Function.update_of_ne same _ _

end Extras

/-- The state of a `BlockChain`. -/
structure Store where
  genesis : Header
  tieBreakingGas : Bool
  /-- The blocks but for the genesis block. -/
  blocks : H256 → Option Header := fun _ => none
  details : H256 → Option BlockDetails
  blockHashes : Extras Nat H256 := {}
  transactionAddresses : Extras H256 TransactionAddress := {}
  blocksBlooms : Extras Nat BlocksBlooms := {}
  lastBlockHash : H256
  lastBlockNumber : Nat

namespace Store

/-- A chain that was opened without databases. -/
def start (genesis : Header) (difficulty : U256) (tieBreakingGas : Bool) :
    Store where
  genesis
  tieBreakingGas
  details := Function.update (fun _ => none) genesis.hash
    (some ⟨0, difficulty, zeroHash 32⟩)
  lastBlockHash := genesis.hash
  lastBlockNumber := 0

/-- `details`. -/
def detailsOf (store : Store) (hash : H256) : BlockDetails :=
  (store.details hash).getD {}

/-- `details(_hash).parent`. -/
def parent (store : Store) (hash : H256) : H256 :=
  (store.detailsOf hash).parent

/-- `number(_hash)`. -/
def number (store : Store) (hash : H256) : Nat :=
  (store.detailsOf hash).number

/-- `block`; a block that is not found has no header. -/
def block (store : Store) (hash : H256) : Option Header :=
  if hash = store.genesis.hash then some store.genesis else store.blocks hash

/-- `numberHash`. -/
def numberHash (number : Nat) (store : Store) : H256 × Store :=
  if number = 0 then (store.genesis.hash, store)
  else
    let (found, blockHashes) := store.blockHashes.query number
    (found.getD (zeroHash 32), { store with blockHashes })

/-! ## Routes -/

/-- A loop that goes up by some blocks; they are listed if `listed` says
so. -/
def climb (store : Store) (listed : Bool) :
    Nat → H256 → List H256 → H256 × List H256
  | 0, hash, list => (hash, list)
  | steps + 1, hash, list =>
      store.climb listed steps (store.parent hash)
        (if listed then list ++ [hash] else list)

/-- The last loop of `treeRoute`, which goes up from two blocks until they
are the same.  It may only go on for `fuel` rounds; the assertions say that no
chain ends before. -/
def meet (store : Store) (common pre post : Bool) :
    Nat → H256 → H256 → List H256 → List H256 →
      Option (H256 × List H256 × List H256)
  | 0, _, _, _, _ => none
  | fuel + 1, start, goal, ret, back =>
      let ret := if pre ∧ (start ≠ goal ∨ common) then ret ++ [start] else ret
      let back := if post ∧ (start ≠ goal ∨ (!pre ∧ common)) then
        back ++ [goal] else back
      if start = goal then some (start, ret, back)
      else if start = zeroHash 32 ∨ goal = zeroHash 32 then none
      else store.meet common pre post fuel (store.parent start)
        (store.parent goal) ret back

/-- `treeRoute`; `none` if it does not return. -/
def treeRoute (store : Store) (start goal : H256)
    (common pre post : Bool := true) : Option (List H256 × H256 × Nat) :=
  if start = zeroHash 32 ∨ goal = zeroHash 32 then
    some ([], zeroHash 32, 0)
  else if (store.detailsOf start).isNull ∨ (store.detailsOf goal).isNull then
    some ([], zeroHash 32, 0)
  else
    let fn := store.number start
    let tn := store.number goal
    let (start, ret) := store.climb pre (fn - tn) start []
    let (goal, back) := store.climb post (tn - fn) goal []
    (store.meet common pre post (min fn tn + 1) start goal ret back).map
      fun (start, ret, back) => (ret ++ back.reverse, start,
        ret.length - if common ∧ ret ≠ [] ∧ back ≠ [] then 1 else 0)

/-! ## Blooms -/

/-- `chunkId`; the number in the hash. -/
def chunkId (level index : Nat) : Nat := (index * 0xff + level) % 2 ^ 32

/-- `blocksBlooms`. -/
def blooms (store : Store) (id : Nat) : BlocksBlooms :=
  (store.blocksBlooms.read id).getD nullBlocksBlooms

/-- The place of a number in its chunk. -/
def offset (index : Nat) : Fin c_bloomIndexSize :=
  ⟨index % c_bloomIndexSize, Nat.mod_lt _ (by decide)⟩

/-- What `clearBlockBlooms` puts into one slot. -/
def rebuiltBloom (store : Store) (level item : Nat) : LogBloom :=
  if level = 0 then zeroHash 256
  else (List.ofFn (store.blooms (chunkId (level - 1) item))).foldl
    FixedHash.union (zeroHash 256)

/-- One round of the inner loop of `clearBlockBlooms`. -/
def clearBloom (level item : Nat) (store : Store) : Store :=
  let id := chunkId level (item / c_bloomIndexSize)
  { store with
    blocksBlooms := store.blocksBlooms.cache id
      (Function.update (store.blooms id) (offset item)
        (store.rebuiltBloom level item)) }

/-- The inner loop of `clearBlockBlooms`: the counter goes up from `beginDirty`
until it is `endDirty`. -/
def clearLevel (level beginDirty endDirty : Nat) (store : Store) : Store :=
  (List.range ((endDirty + (2 ^ 32 - beginDirty)) % 2 ^ 32)).foldl
    (fun store count =>
      store.clearBloom level ((beginDirty + count) % 2 ^ 32)) store

/-- `(endDirty - 1) / c_bloomIndexSize + 1`. -/
def endAbove (endDirty : Nat) : Nat :=
  (endDirty + (2 ^ 32 - 1)) % 2 ^ 32 / c_bloomIndexSize + 1

/-- The loops of `clearBlockBlooms` from one level on. -/
def clearLevels : List Nat → Nat → Nat → Store → Store
  | [], _, _, store => store
  | level :: levels, beginDirty, endDirty, store =>
      clearLevels levels (beginDirty / c_bloomIndexSize) (endAbove endDirty)
        (store.clearLevel level beginDirty endDirty)

/-- `clearBlockBlooms`. -/
def clearBlockBlooms (first last : Nat) (store : Store) : Store :=
  clearLevels (List.range c_bloomIndexLevels) first last store

/-- The number behind that of the head. -/
def endNumber (store : Store) : Nat := (store.lastBlockNumber + 1) % 2 ^ 32

/-- `clearCachesDuringChainReversion`. -/
def clearCachesDuringChainReversion (firstInvalid : Nat) (store : Store) :
    Store :=
  clearBlockBlooms firstInvalid store.endNumber { store with
    blockHashes := store.blockHashes.forget
      (List.range' firstInvalid (store.endNumber - firstInvalid))
    transactionAddresses :=
      { store.transactionAddresses with cached := fun _ => none } }

/-- The bloom of a block: that of its logs and its author. -/
def blockBloom [Hashing] (header : Header) : LogBloom :=
  header.logBloom.union (bloomPart (sha3 header.author.val))

/-- A bloom goes into the slot of a number at one level. -/
def addBloom (bloom : LogBloom) (level index : Nat) (store : Store) : Store :=
  let id := chunkId level (index / c_bloomIndexSize)
  let blooms := Function.update (store.blooms id) (offset index)
    ((store.blooms id (offset index)).union bloom)
  { store with
    blocksBlooms := (store.blocksBlooms.cache id blooms).store id blooms }

/-- A bloom goes into the slots of a number. -/
def addBlooms (bloom : LogBloom) : List Nat → Nat → Store → Store
  | [], _, store => store
  | level :: levels, index, store =>
      addBlooms bloom levels (index / c_bloomIndexSize)
        (store.addBloom bloom level index)

/-- The places of the transactions of a block. -/
def addTransactions (header : Header) (store : Store) : Store :=
  { store with
    transactionAddresses := header.transactions.zipIdx.foldl
      (fun extras transaction =>
        extras.store transaction.1 ⟨header.hash, transaction.2⟩)
      store.transactionAddresses }

/-- A block becomes part of the chain of the head: one round of the loop of
`insertBlockAndExtras` over the route. -/
def enter [Hashing] (store : Store) (header : Header) : Store :=
  let store := (store.addBlooms (blockBloom header)
    (List.range c_bloomIndexLevels) (header.number % 2 ^ 32)).addTransactions
      header
  { store with
    blockHashes := store.blockHashes.store header.number header.hash }

/-! ## Imports -/

/-- The block and its details are written. -/
def put (header : Header) (totalDifficulty : U256) (store : Store) : Store :=
  { store with
    blocks := Function.update store.blocks header.hash header
    details := Function.update store.details header.hash
      (some ⟨header.number % 2 ^ 32, totalDifficulty, header.parentHash⟩) }

/-- The block will be the head. -/
def isBest (header : Header) (totalDifficulty : U256) (store : Store) :
    Option Bool := do
  let last := store.detailsOf store.lastBlockHash
  if last.totalDifficulty < totalDifficulty then return true
  if store.tieBreakingGas ∧ totalDifficulty = last.totalDifficulty then
    return (← store.block store.lastBlockHash).gasUsed < header.gasUsed
  return false

/-- The header of a block of the route. -/
def routeHeader (store : Store) (header : Header) (hash : H256) :
    Option Header :=
  if hash = header.hash then some header else store.block hash

/-- What is returned: the blocks before and behind the common one. -/
def importRoute (header : Header) (route : List H256) (common : H256) :
    ImportRoute where
  deadBlocks := route.takeWhile fun hash => hash ≠ common
  liveBlocks := (route.dropWhile fun hash => hash ≠ common).filter fun hash =>
    hash ≠ common
  goodTransactions := header.transactions

/-- `insertBlockAndExtras`; `none` if it does not return. -/
def insertBlockAndExtras [Hashing] (header : Header) (totalDifficulty : U256)
    (store : Store) : Option (ImportRoute × Store) := do
  if ← store.isBest header totalDifficulty then
    let (route, common, _) ←
      store.treeRoute store.lastBlockHash header.parentHash
    let route := route ++ [header.hash]
    let cleared := if common = store.lastBlockHash then store
      else store.clearCachesDuringChainReversion
        ((store.number common + 1) % 2 ^ 32)
    let entering ← (route.reverse.takeWhile fun hash => hash ≠ common).mapM
      (store.routeHeader header)
    let entered := entering.foldl enter cleared
    return (importRoute header route common,
      { entered.put header totalDifficulty with
        lastBlockHash := header.hash
        lastBlockNumber := header.number % 2 ^ 32 })
  else
    return ({ goodTransactions := header.transactions },
      store.put header totalDifficulty)

/-- `rewind`. -/
def rewind (newHead : Nat) (store : Store) : Store :=
  if store.lastBlockNumber ≤ newHead then store
  else
    let (hash, store) := numberHash newHead
      (store.clearCachesDuringChainReversion (newHead + 1))
    { store with
      lastBlockHash := hash
      lastBlockNumber := newHead }

/-- `garbageCollect`: what has not been used for long leaves the caches, but
`m_blockHashes` is left alone. -/
def garbageCollect (blooms : List Nat) (transactions : List H256)
    (store : Store) : Store :=
  { store with
    blocksBlooms := store.blocksBlooms.forget blooms
    transactionAddresses := store.transactionAddresses.forget transactions }

/-! ## Log search -/

/-- `upow`; the loop squares `b - 1` times. -/
def upow (base exponent : Nat) : Nat :=
  if exponent = 0 then 1
  else (List.range (exponent - 1)).foldl
    (fun base _ => base * base % 2 ^ 32) base

def ceilDiv (dividend divisor : Nat) : Nat :=
  (dividend + divisor - 1) % 2 ^ 32 / divisor

/-- `withBlockBloom` from one level on, where it looks into one chunk. -/
def withBlockBloomIn (store : Store) (bloom : LogBloom)
    (earliest latest : Nat) : Nat → Nat → List Nat
  | level, index =>
      let uCourse := upow c_bloomIndexSize (level + 1)
      let uFine := upow c_bloomIndexSize level
      let obegin := if index = earliest / uCourse then
        earliest / uFine % c_bloomIndexSize else 0
      let oend := if index = latest / uCourse then
        latest / uFine % c_bloomIndexSize + 1 else c_bloomIndexSize
      let chunk := store.blooms (chunkId level index)
      let found := (List.range' obegin (oend - obegin)).filter fun o =>
        (chunk (offset o)).contains bloom
      match level with
      | 0 => found.map fun o => (o + index * c_bloomIndexSize) % 2 ^ 32
      | level + 1 => found.flatMap fun o =>
          store.withBlockBloomIn bloom earliest latest level
            ((o + index * c_bloomIndexSize) % 2 ^ 32)

/-- `withBlockBloom`. -/
def withBlockBloom (store : Store) (bloom : LogBloom)
    (earliest latest : Nat) : List Nat :=
  let u := upow c_bloomIndexSize c_bloomIndexLevels
  let first := earliest / u
  (List.range' first (ceilDiv latest u + 1 - first)).flatMap fun index =>
    store.withBlockBloomIn bloom earliest latest (c_bloomIndexLevels - 1)
      index

end Store

/-! ## Runs -/

/-- A step of the chain. -/
inductive Step where
  | insertBlockAndExtras (header : Header) (totalDifficulty : U256)
  | rewind (newHead : Nat)
  | garbageCollect (blooms : List Nat) (transactions : List H256)
  | numberHash (number : Nat)

def Store.step [Hashing] (store : Store) : Step → Option Store
  | .insertBlockAndExtras header totalDifficulty =>
      (store.insertBlockAndExtras header totalDifficulty).map Prod.snd
  | .rewind newHead => some (store.rewind newHead)
  | .garbageCollect blooms transactions =>
      some (store.garbageCollect blooms transactions)
  | .numberHash number => some (store.numberHash number).2

def Store.run [Hashing] (store : Store) (steps : List Step) : Option Store :=
  steps.foldlM step store

end BlockChain

end Aecmio
