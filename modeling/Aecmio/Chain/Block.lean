import Aecmio.Chain.Receipt
import Aecmio.State.State

/-!
# Enacting a block

`Block::enact` plays a verified block back on the state of its parent: it
executes the transactions, checks the receipts and the uncles, applies the
rewards, commits the state and compares the header with what came out.  The
execution of a transaction and the chain are parameters.
-/

namespace Aecmio

/-- What is asked of the chain and of its seal engine. -/
structure BlockChain where
  lastBlockHashes : H256 → List H256
  allKinFrom : H256 → Nat → List H256
  isKnown : H256 → Bool
  block : H256 → Bytes
  /-- `details(_hash).parent`. -/
  parent : H256 → H256
  blockReward : Int → U256
  eip158ForkBlock : Nat

structure VerifiedBlockRef (Transaction : Type) where
  block : Bytes
  info : BlockHeader
  transactions : List Transaction

structure Block (Transaction : Type) where
  state : State
  transactions : List Transaction := []
  receipts : List TransactionReceipt := []
  precommit : State
  previousBlock : BlockHeader
  currentBlock : BlockHeader
  currentBytes : Bytes := []
  committedToSeal : Bool := false

/-- The exceptions of `enact`; `ε` are those of the execution. -/
inductive BlockError (ε : Type) where
  | invalidParentHash
  | invalidOperationOnSealedBlock
  | execution (error : ε)
  | rlp (error : RLPError)
  | state (error : StateError)
  | header (error : HeaderError)
  | transactionIndex (index : Nat) (error : BlockError ε)
  | uncleIndex (index : Nat) (error : BlockError ε)
  | invalidReceiptsStateRoot (required got : H256)
  | invalidLogBloom (required got : LogBloom)
  | tooManyUncles (maximum got : Nat)
  | uncleInChain (hash : H256)
  | unknownParent (hash : H256)
  | uncleTooOld (uncleNumber currentNumber : Int)
  | uncleIsBrother (uncleNumber currentNumber : Int)
  | uncleParentNotInChain (uncleNumber currentNumber : Int)
  | invalidStateRoot (required got : H256)
  | invalidGasUsed (required got : U256)

/-- A method of a block; what it leaves behind when it throws is not kept. -/
abbrev BlockM (Transaction ε : Type) :=
  StateT (Block Transaction) (Except (BlockError ε))

namespace Block

variable [Hashing] {Transaction ε : Type}

section

omit [Hashing]

def ofRlp {α : Type} (result : Except RLPError α) : BlockM Transaction ε α :=
  StateT.lift (result.mapError BlockError.rlp)

def ofHeader {α : Type} (result : Except HeaderError α) :
    BlockM Transaction ε α :=
  StateT.lift (result.mapError BlockError.header)

/-- A method of another class on the state of the block. -/
def onState {α ε' : Type} (wrap : ε' → BlockError ε)
    (method : EStateM ε' State α) : BlockM Transaction ε α := do
  let block ← get
  match method.run block.state with
  | .ok value state =>
      set { block with state }
      return value
  | .error error _ => throw (wrap error)

def isSealed (block : Block Transaction) : Bool := !block.currentBytes.isEmpty

/-- Cumulative gas used. -/
def gasUsed (block : Block Transaction) : U256 :=
  match block.receipts.getLast? with
  | some receipt => receipt.cumulativeGasUsed
  | none => 0

def logBloom (block : Block Transaction) : LogBloom :=
  block.receipts.foldl (fun bloom receipt => bloom.union receipt.bloom)
    (zeroHash 256)

def uncommitToSeal (block : Block Transaction) : Block Transaction :=
  if block.committedToSeal then
    { block with state := block.precommit, committedToSeal := false }
  else block

end

/-- `State::execute` with `Permanence::Committed`. -/
abbrev Execution (Transaction ε : Type) :=
  EnvInfo → Transaction → EStateM ε State TransactionReceipt

variable (execution : Execution Transaction ε)

def execute (lastHashes : H256 → List H256) (transaction : Transaction) :
    BlockM Transaction ε Unit := do
  if (← get).isSealed then throw .invalidOperationOnSealedBlock
  modify uncommitToSeal
  let block ← get
  let receipt ← onState .execution
    (execution ⟨block.currentBlock, lastHashes, block.gasUsed⟩ transaction)
  modify fun block => { block with
    transactions := block.transactions ++ [transaction]
    receipts := block.receipts ++ [receipt] }

/-- The RLP of the receipt that was added last. -/
def lastReceipt : BlockM Transaction ε Bytes := do
  match (← get).receipts.getLast? with
  | some receipt => ofRlp receipt.rlp
  | none => ofRlp (.error .outOfBounds)

/-- The loop over the transactions, from an index on; the RLP of the receipts
of this loop. -/
def playBack (lastHashes : H256 → List H256) : Nat → List Transaction →
    BlockM Transaction ε (List Bytes)
  | _, [] => return []
  | index, transaction :: rest => do
      tryCatch (execute execution lastHashes transaction) fun error =>
        throw (.transactionIndex index error)
      let receipt ← lastReceipt
      return receipt :: (← playBack lastHashes (index + 1) rest)

/-- The ancestor that the uncle's parent has to be. -/
def expectedUncleParent (chain : BlockChain) (parentHash : H256) : Nat → H256
  | 0 => chain.parent parentHash
  | rounds + 1 => chain.parent (expectedUncleParent chain parentHash rounds)

/-- One round of the loop over the uncles. -/
def checkUncle (chain : BlockChain) (excluded : List H256) (uncleData : Bytes) :
    BlockM Transaction ε (BlockHeader × H256) := do
  let block ← get
  let hash := sha3 uncleData
  if hash ∈ excluded then throw (.uncleInChain hash)
  let uncle ← ofRlp (BlockHeader.populate uncleData hash)
  if !chain.isKnown uncle.parentHash then
    throw (.unknownParent uncle.parentHash)
  let uncleParent ← ofHeader (BlockHeader.ofBlock (chain.block uncle.parentHash))
  let current := block.currentBlock.number
  let depth := current - uncle.number
  if 6 < depth then throw (.uncleTooOld uncle.number current)
  if depth < 1 then throw (.uncleIsBrother uncle.number current)
  let expected := expectedUncleParent chain block.currentBlock.parentHash
    (depth.toNat - 1)
  if expected ≠ (← ofRlp uncleParent.hash) then
    throw (.uncleParentNotInChain uncle.number current)
  ofHeader (uncle.verify uncleParent)
  return (uncle, hash)

/-- The loop over the uncles, from an index on; the uncles to be rewarded. -/
def checkUncles (chain : BlockChain) : Nat → List H256 → List Bytes →
    BlockM Transaction ε (List BlockHeader)
  | _, _, [] => return []
  | index, excluded, uncleData :: rest => do
      let (uncle, hash) ← tryCatch (checkUncle chain excluded uncleData)
        fun error => throw (.uncleIndex index error)
      return uncle :: (← checkUncles chain (index + 1) (hash :: excluded) rest)

def applyRewards (uncles : List BlockHeader) (blockReward : U256) :
    BlockM Transaction ε Unit := do
  let current := (← get).currentBlock
  let reward ← uncles.foldlM
    (fun reward uncle => do
      onState .state (State.addBalance uncle.author
        (blockReward * BitVec.ofInt 256 (8 + uncle.number - current.number) / 8))
      return reward + blockReward / 32)
    blockReward
  onState .state (State.addBalance current.author reward)

/-- The comparison of the header with the receipts. -/
def checkReceipts (receipts : List Bytes) : BlockM Transaction ε Unit := do
  let block ← get
  let receiptsRoot ← ofRlp (orderedTrieRoot receipts)
  if receiptsRoot ≠ block.currentBlock.receiptsRoot then
    throw (.invalidReceiptsStateRoot block.currentBlock.receiptsRoot
      receiptsRoot)
  if block.currentBlock.logBloom ≠ block.logBloom then
    throw (.invalidLogBloom block.currentBlock.logBloom block.logBloom)

/-- The uncles of the block, checked, and the rewards for them. -/
def rewardUncles (chain : BlockChain) (rlp : Bytes) :
    BlockM Transaction ε Unit := do
  let uncles ← ofRlp (RLP.at_ rlp 2)
  let count ← ofRlp (RLP.itemCount uncles)
  if 2 < count then throw (.tooManyUncles 2 count)
  let current := (← get).currentBlock
  let excluded := chain.allKinFrom current.parentHash 6
  let hash ← ofRlp current.hash
  let rewarded ← checkUncles chain 0 (hash :: excluded)
    (← ofRlp (RLP.iterate uncles))
  applyRewards rewarded (chain.blockReward current.number)

/-- The commit of the cached changes to the state trie. -/
def commitState (chain : BlockChain) : BlockM Transaction ε Unit := do
  let number := (← get).currentBlock.number
  onState .state (State.commit
    (if (chain.eip158ForkBlock : Int) ≤ number then .removeEmptyAccounts
      else .keepEmptyAccounts))

/-- The comparison of the header with the state and the gas. -/
def checkResult : BlockM Transaction ε Unit := do
  let block ← get
  let header := block.currentBlock
  if header.stateRoot ≠ block.previousBlock.stateRoot ∧
      header.stateRoot ≠ block.state.rootHash then
    throw (.invalidStateRoot header.stateRoot block.state.rootHash)
  if header.gasUsed ≠ block.gasUsed then
    throw (.invalidGasUsed header.gasUsed block.gasUsed)

def enact (chain : BlockChain) (verified : VerifiedBlockRef Transaction) :
    BlockM Transaction ε U256 := do
  let block ← get
  if block.currentBlock.parentHash ≠ (← ofRlp block.previousBlock.hash) then
    throw .invalidParentHash
  modify fun block => { block with currentBlock := verified.info }
  let rlp ← ofRlp (RLP.construct verified.block .veryStrict)
  let receipts ← playBack execution chain.lastBlockHashes 0
    verified.transactions
  checkReceipts receipts
  rewardUncles chain rlp
  commitState chain
  checkResult
  return verified.info.difficulty

end Block

end Aecmio
