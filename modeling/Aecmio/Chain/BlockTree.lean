import Aecmio.Chain.BlockChain
import Aecmio.Chain.BlockIdentity

/-!
# The tree of blocks

Every imported block is kept under its hash, with its number, its parent and
its children, which are in a database and in a cache.  The miner looks for
uncles among the children of the ancestors of the head; `enact` checks the
uncles of a block from their headers.  The blocks themselves are read through
a cache too, which makes no difference and is left out.
-/

namespace Aecmio

/-- `BlockDetails` without the total difficulty. -/
structure BlockTree.Details where
  number : Nat := BlockChain.c_invalidNumber
  parent : H256 := zeroHash 32
  children : List H256 := []
deriving DecidableEq

structure BlockTree where
  genesisBlock : Bytes
  genesisHash : H256
  blocks : H256 → Option Bytes := fun _ => none
  details : BlockChain.Extras H256 BlockTree.Details
  lastBlockHash : H256
  lastBlockNumber : Nat

/-- `extractHeader`. -/
def extractHeader (block : Bytes) : Except HeaderError Bytes := do
  let root ← (RLP.construct block .veryStrict).mapError .rlp
  if !RLP.isList root then
    throw (.invalidBlockFormat "Block must be a list")
  let header ← (RLP.at_ root 0).mapError .rlp
  if !RLP.isList header then
    throw (.invalidBlockFormat "Block header must be a list")
  if !RLP.isList (← (RLP.at_ root 1).mapError .rlp) then
    throw (.invalidBlockFormat "Block transactions must be a list")
  if !RLP.isList (← (RLP.at_ root 2).mapError .rlp) then
    throw (.invalidBlockFormat "Block uncles must be a list")
  return header

/-- The items of `RLP(_block)[2]`. -/
def uncleItems (block : Bytes) : Except RLPError (List Bytes) := do
  RLP.iterate (← RLP.at_ (← RLP.construct block .veryStrict) 2)

namespace BlockTree

/-- A tree with nothing but the genesis block. -/
def start [Hashing] (genesisBlock : Bytes) : BlockTree :=
  let genesisHash := match extractHeader genesisBlock with
    | .ok header => sha3 header
    | .error _ => zeroHash 32
  let details : Details := ⟨0, zeroHash 32, []⟩
  { genesisBlock
    genesisHash
    details := {
      stored := Function.update (fun _ => none) genesisHash (some details)
      cached := Function.update (fun _ => none) genesisHash (some details) }
    lastBlockHash := genesisHash
    lastBlockNumber := 0 }

/-- `block`, empty when it is not found. -/
def block (tree : BlockTree) (hash : H256) : Bytes :=
  if hash = tree.genesisHash then tree.genesisBlock
  else (tree.blocks hash).getD []

/-- `headerData`; what is kept has a header. -/
def headerData (tree : BlockTree) (hash : H256) : Bytes :=
  match extractHeader (tree.block hash) with
  | .ok header => header
  | .error _ => []

/-- `info`. -/
def info [Hashing] (tree : BlockTree) (hash : H256) :
    Except RLPError BlockHeader :=
  BlockHeader.ofHeaderData (tree.headerData hash)

/-- `details`. -/
def detailsOf (tree : BlockTree) (hash : H256) : Details :=
  (tree.details.read hash).getD {}

/-- `isKnown`. -/
def isKnown (tree : BlockTree) (hash : H256) (isCurrent : Bool := true) :
    Bool :=
  hash = tree.genesisHash ∨ (tree.blocks hash).isSome ∧
    (tree.details.read hash).isSome ∧
      (isCurrent = false ∨
        (tree.detailsOf hash).number ≤ tree.lastBlockNumber)

theorem lawfulBEq_h256 : LawfulBEq H256 := inferInstance

attribute [local instance] lawfulBEq_h256

/-- A child is put down; `BlockChain::insert` looks whether it is there. -/
def addChild (once : Bool) (hash : H256) (details : Details) : Details :=
  if once ∧ hash ∈ details.children then details
  else { details with children := details.children ++ [hash] }

/-- The blocks and the details that `insertBlockAndExtras` and `insert`
write.  The details of the block itself are not put into the cache. -/
def insertBlock (once best : Bool) (hash : H256) (header : BlockHeader)
    (block : Bytes) (tree : BlockTree) : BlockTree :=
  let details := (tree.details.query header.parentHash).2
  let parent := addChild once hash
    ((details.cached header.parentHash).getD {})
  let number := header.number.toNat % 2 ^ 32
  { tree with
    blocks := Function.update tree.blocks hash (some block)
    details := ((details.cache header.parentHash parent).store
      header.parentHash parent).store hash ⟨number, header.parentHash, []⟩
    lastBlockHash := if best then hash else tree.lastBlockHash
    lastBlockNumber := if best then number else tree.lastBlockNumber }

/-- All checks that need the parents. -/
def inOrderChecks : ImportRequirements where
  parent := true
  uncleParent := true

section Steps

variable [Hashing] [Recovering] (engine : SealEngine)

/-- `import` and `insert` of a block, or nothing when it is refused.  A block
may be refused for other reasons too, which changes nothing either. -/
def import_ (mustBeNew once best : Bool) (block : Bytes) (tree : BlockTree) :
    Option BlockTree := do
  let verified ← (BlockChain.verifyBlock engine tree.headerData
    .outOfOrderChecks block).toOption
  let hash ← verified.info.hash.toOption
  guard (!(mustBeNew && tree.isKnown hash))
  guard (tree.isKnown verified.info.parentHash false)
  let _ ← (BlockChain.verifyBlock engine tree.headerData inOrderChecks
    block).toOption
  return tree.insertBlock once best hash verified.info block

/-- What happens to a tree. -/
inductive Step where
  | import_ (mustBeNew once best : Bool) (block : Bytes)
  /-- A rewind, or a better block that was there before. -/
  | head (hash : H256)
  /-- The details of a block are read into the cache. -/
  | query (hash : H256)
  /-- Some of them leave the cache. -/
  | forget (hashes : List H256)

def step (tree : BlockTree) : Step → BlockTree
  | .import_ mustBeNew once best block =>
      (tree.import_ engine mustBeNew once best block).getD tree
  | .head hash =>
      match tree.details.read hash with
      | none => tree
      | some details => { tree with
          lastBlockHash := hash
          lastBlockNumber := details.number }
  | .query hash => { tree with details := (tree.details.query hash).2 }
  | .forget hashes => { tree with details := tree.details.forget hashes }

def run (tree : BlockTree) (steps : List Step) : BlockTree :=
  steps.foldl (step engine) tree

end Steps

/-! ## Uncles -/

/-- The loop of `allKinFrom`. -/
def kinLoop [Hashing] (tree : BlockTree) : Nat → H256 → List H256 →
    Except RLPError (List H256)
  | 0, _, ret => .ok ret
  | generations + 1, hash, ret =>
      if hash = tree.genesisHash then .ok ret
      else do
        let parent := (tree.detailsOf hash).parent
        let uncles ← uncleItems (tree.block hash)
        kinLoop tree generations parent
          (uncles.map (fun uncle => sha3 uncle) ++ parent :: ret)

def allKinFrom [Hashing] (tree : BlockTree) (parent : H256)
    (generations : Nat) : Except RLPError (List H256) :=
  tree.kinLoop generations parent [parent]

/-- The uncles chosen so far, and what is not to be chosen. -/
structure Chosen where
  excluded : List H256
  uncles : List H256 := []

/-- The loop over the children of an ancestor, which ends with the second
uncle. -/
def chooseAmong : List H256 → Chosen → Chosen
  | [], chosen => chosen
  | child :: children, chosen =>
      if child ∈ chosen.excluded then chooseAmong children chosen
      else if chosen.uncles.length + 1 = 2 then
        { chosen with uncles := chosen.uncles ++ [child] }
      else chooseAmong children
        ⟨child :: chosen.excluded, chosen.uncles ++ [child]⟩

/-- The loop over the ancestors. -/
def chooseFrom (tree : BlockTree) : Nat → H256 → Chosen → Chosen
  | 0, _, chosen => chosen
  | generations + 1, hash, chosen =>
      if hash ≠ tree.genesisHash ∧ chosen.uncles.length < 2 then
        chooseFrom tree generations (tree.detailsOf hash).parent
          (chooseAmong (tree.detailsOf hash).children chosen)
      else chosen

/-- The uncles that `commitToSeal` puts into a block. -/
def unclesFor [Hashing] (tree : BlockTree)
    (previousBlock currentBlock : BlockHeader) :
    Except RLPError (List H256) :=
  if previousBlock.number = 0 then .ok []
  else do
    let excluded ← tree.allKinFrom currentBlock.parentHash 6
    return (tree.chooseFrom 6 previousBlock.parentHash { excluded }).uncles

/-- What `enact` asks of the chain. -/
def chain [Hashing] (tree : BlockTree) (lastBlockHashes : H256 → List H256)
    (blockReward : Int → U256) (eip158ForkBlock : Nat) : BlockChain where
  lastBlockHashes
  allKinFrom hash generations :=
    match tree.allKinFrom hash generations with
    | .ok kin => kin
    | .error _ => []
  isKnown hash := tree.isKnown hash
  block := tree.block
  parent hash := (tree.detailsOf hash).parent
  blockReward
  eip158ForkBlock

end BlockTree

end Aecmio
