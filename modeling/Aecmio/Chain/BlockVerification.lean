import Aecmio.Chain.Block
import Aecmio.Chain.HeaderCodec
import Aecmio.Chain.OrderedRoots
import Aecmio.Chain.TransactionBase

/-!
# Verifying a block on its own

`BlockChain::verifyBlock` checks a block from its bytes: the header and its
seal, the root of the transactions, the hash of the uncles, then every uncle
and every transaction.  The requirements say which of these are checked and
whether the parent is looked up.
-/

namespace Aecmio

deriving instance DecidableEq for VerifiedBlockRef

/-- What `verify` checks of a header. -/
inductive BlockHeader.Strictness where
  | checkEverything
  | justSeal
  | quickNonce
  | ignoreSeal
  | checkNothingNew
deriving DecidableEq

structure ImportRequirements where
  validSeal : Bool := false
  uncleBasic : Bool := false
  transactionBasic : Bool := false
  uncleSeals : Bool := false
  transactionSignatures : Bool := false
  parent : Bool := false
  uncleParent : Bool := false
  postGenesis : Bool := false
deriving DecidableEq

/-- All checks that need no other block. -/
def ImportRequirements.outOfOrderChecks : ImportRequirements where
  validSeal := true
  uncleBasic := true
  transactionBasic := true
  uncleSeals := true
  transactionSignatures := true

inductive VerificationError where
  | rlp (error : RLPError)
  | header (error : HeaderError)
  | transaction (error : TransactionError)
  /-- An exception of the engine, by its name. -/
  | engine (name : String)
  | invalidParentHash
  | invalidUncleParentHash
  | tooMuchGasUsed
  | invalidTransactionsRoot (required got : H256)
  | invalidUnclesHash (required got : H256)
deriving DecidableEq

/-- What the engine checks besides what `SealEngineFace` does. -/
structure SealEngine where
  verify : BlockHeader.Strictness → BlockHeader → BlockHeader →
    Except VerificationError Unit
  verifyTransaction : ImportRequirements → TransactionBase → BlockHeader →
    U256 → Except VerificationError Unit

section

variable [Hashing]

/-- `headerHashFromBlock`. -/
def headerHashFromBlock (block : Bytes) : Except RLPError H256 := do
  return sha3 (← RLP.at_ (← RLP.construct block .veryStrict) 0)

/-- `BOOST_THROW_EXCEPTION` unless a condition holds. -/
def VerificationError.unless (error : VerificationError) (holds : Bool) :
    Except VerificationError Unit :=
  if holds then .ok () else .error error

namespace BlockHeader

/-- What `verify` compares with a whole block. -/
def verifyBody (header : BlockHeader) (block : Bytes) :
    Except VerificationError Unit := do
  let root ← (RLP.construct block .veryStrict).mapError .rlp
  let txList ← (RLP.at_ root 1).mapError .rlp
  let count ← (RLP.itemCount txList).mapError .rlp
  let expectedRoot ← (trieRootOver sha3 count indexKey
    (RLP.at_ txList)).mapError .rlp
  (VerificationError.invalidTransactionsRoot expectedRoot
    header.transactionsRoot).unless (header.transactionsRoot = expectedRoot)
  let uncles ← (RLP.at_ root 2).mapError .rlp
  (VerificationError.invalidUnclesHash (sha3 uncles)
    header.sha3Uncles).unless (header.sha3Uncles = sha3 uncles)

/-- `verify`, with the bytes of the block or none. -/
def verifyWith (header : BlockHeader) (strictness : Strictness)
    (parent : BlockHeader) (block : Bytes) :
    Except VerificationError Unit := do
  (VerificationError.header .invalidNumber).unless (header.number ≤ 2 ^ 32 - 1)
  VerificationError.tooMuchGasUsed.unless
    (strictness = .checkNothingNew ∨ header.gasUsed ≤ header.gasLimit)
  (header.verify parent).mapError .header
  if block = [] then return () else header.verifyBody block

end BlockHeader

namespace SealEngine

/-- `verify` of an engine, which starts with that of the header. -/
def check (engine : SealEngine) (strictness : BlockHeader.Strictness)
    (header parent : BlockHeader) (block : Bytes) :
    Except VerificationError Unit := do
  header.verifyWith strictness parent block
  engine.verify strictness header parent

end SealEngine

namespace BlockChain

variable (engine : SealEngine) (headerData : H256 → Bytes)

/-- The parent, cleared when it is not wanted. -/
def parentHeader (wanted : Bool) (hash : H256) (missing : VerificationError) :
    Except VerificationError BlockHeader := do
  if !wanted then return {}
  let data := headerData hash
  if data = [] then throw missing
  (BlockHeader.populate data
    (if hash = zeroHash 32 then sha3 data else hash)).mapError .rlp

/-- The first phase of `verifyBlock`. -/
def verifyHeader (requirements : ImportRequirements) (block : Bytes) :
    Except VerificationError BlockHeader := do
  let header ← (BlockHeader.ofBlock block).mapError .header
  VerificationError.invalidParentHash.unless (!requirements.postGenesis ||
    (header.parentHash ≠ zeroHash 32 && header.number ≠ 0))
  let parent ← parentHeader headerData requirements.parent header.parentHash
    .invalidParentHash
  engine.check (if requirements.validSeal then .checkEverything
    else .quickNonce) header parent block
  return header

def verifyUncle (requirements : ImportRequirements) (uncle : Bytes) :
    Except VerificationError Unit := do
  let header ← (BlockHeader.ofHeaderData uncle).mapError .rlp
  let parent ← parentHeader headerData requirements.uncleParent
    header.parentHash .invalidUncleParentHash
  engine.check (if requirements.uncleSeals then .checkEverything
    else .ignoreSeal) header parent []

def verifyTransaction [Recovering] (requirements : ImportRequirements)
    (header : BlockHeader) (data : Bytes) :
    Except VerificationError TransactionBase := do
  let transaction ← (TransactionBase.ofRlp data
    (if requirements.transactionSignatures then .everything
      else .none)).mapError .transaction
  engine.verifyTransaction requirements transaction header 0
  return transaction

/-- The items of an item of the block, when they are wanted. -/
def itemsOf (wanted : Bool) (block : Bytes) (position : Nat) :
    Except VerificationError (List Bytes) :=
  if wanted then
    (do RLP.iterate (← RLP.at_ (← RLP.construct block .veryStrict)
      position)).mapError .rlp
  else .ok []

def verifyBlock [Recovering] (requirements : ImportRequirements)
    (block : Bytes) :
    Except VerificationError (VerifiedBlockRef TransactionBase) := do
  let header ← verifyHeader engine headerData requirements block
  let uncles ← itemsOf (requirements.uncleBasic || requirements.uncleParent ||
    requirements.uncleSeals) block 2
  uncles.forM (verifyUncle engine headerData requirements)
  let items ← itemsOf (requirements.transactionBasic ||
    requirements.transactionSignatures) block 1
  let transactions ← items.mapM (verifyTransaction engine requirements header)
  return ⟨block, header, transactions⟩

end BlockChain

end

end Aecmio
