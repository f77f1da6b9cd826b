import Aecmio.Chain.BlockHeader
import Aecmio.Chain.OrderedRoots

/-!
# Import of a snapshot

A snapshot is a manifest with the hashes of its chunks.  The chunks of the
state are imported first, and the root that they lead to has to be the one of
the manifest.  A chunk of blocks names the block before its first one and
leaves out of every header what follows from the block before it.
-/

namespace Aecmio

open RLP

/-- The exceptions of an import; a storage and the importers have their own. -/
inductive SnapshotError where
  | rlp (error : RLPError)
  | unsupportedSnapshotManifestVersion
  | invalidSnapshotManifest
  | invalidStateChunkData
  | accountAlreadyImported
  | stateTrieReconstructionFailed
  | invalidBlockChunkData
  | other (description : String)
deriving DecidableEq

structure SnapshotStorageFace where
  readManifest : Except SnapshotError Bytes
  readChunk : H256 → Except SnapshotError Bytes

/-- `StateImporterFace` over the states of an importer. -/
structure StateImporterFace (σ : Type) where
  importAccount (addressHash : H256) (nonce balance : U256)
    (storage : List (H256 × Bytes)) (codeHash : H256) (state : σ) :
    Except SnapshotError σ
  importCode (code : Bytes) (state : σ) : Except SnapshotError (H256 × σ)
  commitStateDatabase (state : σ) : Except SnapshotError σ
  isAccountImported (addressHash : H256) (state : σ) :
    Except SnapshotError Bool
  stateRoot (state : σ) : H256
  lookupCode (hash : H256) (state : σ) : Bytes

/-- The arguments of `importBlock`. -/
structure ImportedBlock where
  header : BlockHeader
  transactions : Bytes
  uncles : Bytes
  receipts : Bytes
  totalDifficulty : U256
deriving DecidableEq

/-- `BlockChainImporterFace` over the states of an importer. -/
structure BlockChainImporterFace (χ : Type) where
  importBlock (block : ImportedBlock) (chain : χ) : Except SnapshotError χ
  setChainStartBlockNumber (number : U256) (chain : χ) :
    Except SnapshotError χ

/-- The value that an `int64_t` has of an integer. -/
def int64 (value : Int) : Int := value.bmod (2 ^ 64)

namespace BlockHeader

/-- `setSeal` with a value that is a hash. -/
def setSeal (header : BlockHeader) (offset : Nat) (value : Bytes) :
    Except RLPError BlockHeader := do
  let field ← (← RLPStream.append value {}).result
  let seals := header.seals ++
    List.replicate (offset + 1 - header.seals.length) []
  return noteDirty { header with seals := seals.set offset field }

end BlockHeader

namespace SnapshotImporter

/-! ## Conversions -/

/-- A conversion of an item of a list. -/
def readAt {α : Type} (view : Bytes) (position : Nat)
    (convert : Bytes → Except RLPError α) : Except SnapshotError α :=
  (RLP.at_ view position >>= convert).mapError .rlp

def readHash (view : Bytes) (position : Nat) : Except SnapshotError H256 :=
  readAt view position fun item => toHash 32 item .veryStrict

def readU256 (view : Bytes) (position : Nat) : Except SnapshotError U256 :=
  readAt view position fun item => do
    return BitVec.ofNat 256 (← toInt .u256 item .veryStrict)

/-- `RLP::toBytesConstRef`, which crops as `toString` does. -/
def toBytesConstRef (view : Bytes) (flags : Strictness) :
    Except RLPError Bytes :=
  RLP.toString view flags

/-- `toVector<h256>`. -/
def toHashes (view : Bytes) : Except RLPError (List H256) :=
  if isList view then do
    let _ ← itemCount view
    (← iterate view).mapM fun item => toHash 32 item .veryStrict
  else .error .badCast

/-! ## Chunks of the state -/

section

variable {σ : Type} (stateImporter : StateImporterFace σ)

/-- `storageMap.emplace`, on the entries in the order of a `std::map`. -/
def emplace (key : H256) (value : Bytes) :
    List (H256 × Bytes) → List (H256 × Bytes)
  | [] => [(key, value)]
  | entry :: entries =>
      if key.val < entry.1.val then (key, value) :: entry :: entries
      else entry :: emplace key value entries

/-- The loop over the entries of the storage of an account. -/
def readStorage : List Bytes → List (H256 × Bytes) →
    Except SnapshotError (List (H256 × Bytes))
  | [], storageMap => return storageMap
  | hashAndValue :: rest, storageMap => do
      if (← (itemCount hashAndValue).mapError .rlp) ≠ 2 then
        throw .invalidStateChunkData
      let keyHash ← readHash hashAndValue 0
      if keyHash = zeroHash 32 ∨ ∃ entry ∈ storageMap, entry.1 = keyHash then
        throw .invalidStateChunkData
      let value ← readAt hashAndValue 1 fun item =>
        toBytes item .veryStrict
      if value.isEmpty then throw .invalidStateChunkData
      readStorage rest (emplace keyHash value storageMap)

/-- The switch over the code flag. -/
def readCode [Hashing] (codeFlag : Nat) (account : Bytes) (state : σ) :
    Except SnapshotError (H256 × σ) :=
  match codeFlag with
  | 0 => .ok (emptySHA3, state)
  | 1 => do
      let code ← readAt account 3 fun item =>
        toBytesConstRef item .veryStrict
      stateImporter.importCode code state
  | 2 => do
      let codeHash ← readHash account 3
      if codeHash = zeroHash 32 ∨
          (stateImporter.lookupCode codeHash state).isEmpty then
        throw .invalidStateChunkData
      return (codeHash, state)
  | _ => .error .invalidStateChunkData

/-- One round of the loop over the accounts of a chunk. -/
def importAccount [Hashing] (accounts : Bytes) (accountIndex : Nat)
    (state : σ) : Except SnapshotError σ := do
  let addressAndAccount ← (RLP.at_ accounts accountIndex).mapError .rlp
  if (← (itemCount addressAndAccount).mapError .rlp) ≠ 2 then
    throw .invalidStateChunkData
  let addressHash ← readHash addressAndAccount 0
  if addressHash = zeroHash 32 then throw .invalidStateChunkData
  -- split parts of an account can only be first in a chunk
  if 0 < accountIndex then
    if ← stateImporter.isAccountImported addressHash state then
      throw .accountAlreadyImported
  let account ← (RLP.at_ addressAndAccount 1).mapError .rlp
  if (← (itemCount account).mapError .rlp) ≠ 5 then
    throw .invalidStateChunkData
  let nonce ← readU256 account 0
  let balance ← readU256 account 1
  let storage ← readAt account 4 iterate
  let storageMap ← readStorage storage []
  let codeFlag ← readAt account 2 fun item => toInt .uint8 item .veryStrict
  let (codeHash, state) ← readCode stateImporter codeFlag account state
  stateImporter.importAccount addressHash nonce balance
    storageMap codeHash state

/-- A chunk of the state, with the commit after it. -/
def importStateChunk [Hashing] (chunkUncompressed : Bytes) (state : σ) :
    Except SnapshotError σ := do
  let accounts ← (construct chunkUncompressed .veryStrict).mapError .rlp
  let accountCount ← (itemCount accounts).mapError .rlp
  let state ← (List.range accountCount).foldlM
    (fun state accountIndex =>
      importAccount stateImporter accounts accountIndex state) state
  stateImporter.commitStateDatabase state

def importStateChunks [Hashing] (snapshotStorage : SnapshotStorageFace)
    (stateChunkHashes : List H256) (stateRoot : H256) (state : σ) :
    Except SnapshotError σ := do
  let state ← stateChunkHashes.foldlM
    (fun state stateChunkHash => do
      importStateChunk stateImporter
        (← snapshotStorage.readChunk stateChunkHash) state) state
  if stateImporter.stateRoot state ≠ stateRoot then
    throw .stateTrieReconstructionFailed
  return state

end

/-! ## Chunks of blocks -/

section

variable [Hashing]

/-- The header, the transactions, the uncles and the receipts of an item of a
chunk. -/
def readBlock (parentHash : H256) (number : Int) (blockAndReceipts : Bytes) :
    Except RLPError (BlockHeader × Bytes × Bytes × Bytes) := do
  let abridgedBlock ← RLP.at_ blockAndReceipts 0
  let author ← toHash 20 (← RLP.at_ abridgedBlock 0) .veryStrict
  let stateRoot ← toHash 32 (← RLP.at_ abridgedBlock 1) .veryStrict
  let transactions ← RLP.at_ abridgedBlock 8
  let transactionsRoot ← trieRootOver sha3 (← itemCount transactions) indexKey
    (RLP.at_ transactions)
  let uncles ← RLP.at_ abridgedBlock 9
  let receipts ← RLP.at_ blockAndReceipts 1
  let receiptsRoot ← orderedTrieRoot (← iterate receipts)
  let logBloom ← toHash 256 (← RLP.at_ abridgedBlock 2) .veryStrict
  let difficulty ← toInt .u256 (← RLP.at_ abridgedBlock 3) .veryStrict
  let gasLimit ← toInt .u256 (← RLP.at_ abridgedBlock 4) .veryStrict
  let gasUsed ← toInt .u256 (← RLP.at_ abridgedBlock 5) .veryStrict
  let timestamp ← BlockHeader.toPositiveInt64 (← RLP.at_ abridgedBlock 6)
  let extraData ← toBytes (← RLP.at_ abridgedBlock 7) .veryStrict
  let mixHash ← toHash 32 (← RLP.at_ abridgedBlock 10) .veryStrict
  let header : BlockHeader := {
    parentHash, author, stateRoot, transactionsRoot, receiptsRoot, logBloom,
    number, timestamp, extraData
    sha3Uncles := sha3 uncles
    difficulty := BitVec.ofNat 256 difficulty
    gasLimit := BitVec.ofNat 256 gasLimit
    gasUsed := BitVec.ofNat 256 gasUsed }
  let header ← header.setSeal 0 mixHash.val
  let nonce ← toHash 8 (← RLP.at_ abridgedBlock 11) .veryStrict
  let header ← header.setSeal 1 nonce.val
  return (header, transactions, uncles, receipts)

variable {χ : Type} (blockChainImporter : BlockChainImporterFace χ)

/-- The loop over the blocks of a chunk. -/
def importBlocks (blockChunk : Bytes) : List Nat → Int → H256 → U256 → χ →
    Except SnapshotError χ
  | [], _, _, _, chain => return chain
  | i :: rest, number, parentHash, totalDifficulty, chain => do
      let blockAndReceipts ← (RLP.at_ blockChunk i).mapError .rlp
      if (← (itemCount blockAndReceipts).mapError .rlp) ≠ 2 then
        throw .invalidBlockChunkData
      let (header, transactions, uncles, receipts) ←
        (readBlock parentHash number blockAndReceipts).mapError .rlp
      let totalDifficulty := totalDifficulty + header.difficulty
      let chain ← blockChainImporter.importBlock
        { header, transactions, uncles, receipts, totalDifficulty } chain
      let parentHash ← header.hash.mapError .rlp
      importBlocks blockChunk rest (int64 (number + 1)) parentHash
        totalDifficulty chain

/-- The number, the hash and the total difficulty of a block. -/
structure Place where
  number : Int
  hash : H256
  totalDifficulty : U256
deriving DecidableEq

/-- What a chunk says of the block before its first one. -/
def readFirst (blockChunk : Bytes) : Except SnapshotError Place := do
  if (← (itemCount blockChunk).mapError .rlp) < 3 then
    throw .invalidBlockChunkData
  let firstBlockNumber ← readAt blockChunk 0 BlockHeader.toPositiveInt64
  let firstBlockHash ← readHash blockChunk 1
  let firstBlockDifficulty ← readU256 blockChunk 2
  if firstBlockNumber = 0 ∨ firstBlockHash = zeroHash 32 ∨
      firstBlockDifficulty = 0 then
    throw .invalidBlockChunkData
  return ⟨firstBlockNumber, firstBlockHash, firstBlockDifficulty⟩

/-- A chunk of blocks, with what its first line says. -/
def importBlockChunk (chunkUncompressed : Bytes) (chain : χ) :
    Except SnapshotError (Place × χ) := do
  let blockChunk ← (construct chunkUncompressed .veryStrict).mapError .rlp
  let first ← readFirst blockChunk
  let itemCount ← (itemCount blockChunk).mapError .rlp
  let chain ← importBlocks blockChainImporter blockChunk
    (List.range' 3 (itemCount - 3)) (int64 (first.number + 1)) first.hash
    first.totalDifficulty chain
  return (first, chain)

/-- The loop over the chunks.  They stand in decreasing order in a manifest,
and the last of them sets the start of the chain. -/
def importBlockChunksFrom (snapshotStorage : SnapshotStorageFace) :
    Bool → List H256 → χ → Except SnapshotError χ
  | _, [], chain => return chain
  | isFirst, chunk :: rest, chain => do
      let (first, chain) ← importBlockChunk blockChainImporter
        (← snapshotStorage.readChunk chunk) chain
      let chain ← if isFirst then
          blockChainImporter.setChainStartBlockNumber
            (BitVec.ofInt 256 (int64 (first.number + 1))) chain
        else pure chain
      importBlockChunksFrom snapshotStorage false rest chain

def importBlockChunks (snapshotStorage : SnapshotStorageFace)
    (blockChunkHashes : List H256) (chain : χ) : Except SnapshotError χ :=
  importBlockChunksFrom blockChainImporter snapshotStorage true
    blockChunkHashes.reverse chain

end

/-! ## A snapshot -/

/-- What a manifest of the right version says. -/
structure Manifest where
  stateChunkHashes : List H256
  blockChunkHashes : List H256
  stateRoot : H256
  blockNumber : U256
  blockHash : H256
deriving DecidableEq

/-- The version, the count of the items and, of what is read before the state
is imported, the number and the hash of the block. -/
def readHead (manifest : Bytes) : Except SnapshotError (U256 × H256) := do
  let version ← readU256 manifest 0
  if version ≠ 2 then throw .unsupportedSnapshotManifestVersion
  if (← (itemCount manifest).mapError .rlp) ≠ 6 then
    throw .invalidSnapshotManifest
  let blockNumber ← readU256 manifest 4
  let blockHash ← readHash manifest 5
  return (blockNumber, blockHash)

/-- `SnapshotImporter::import`; a run that returns gives what it read of the
manifest as well. -/
def importSnapshot [Hashing] {σ χ : Type}
    (stateImporter : StateImporterFace σ)
    (blockChainImporter : BlockChainImporterFace χ)
    (snapshotStorage : SnapshotStorageFace) (state : σ) (chain : χ) :
    Except SnapshotError (Manifest × σ × χ) := do
  let manifestBytes ← snapshotStorage.readManifest
  let manifest ← (construct manifestBytes .veryStrict).mapError .rlp
  let (blockNumber, blockHash) ← readHead manifest
  let stateChunkHashes ← readAt manifest 1 toHashes
  let stateRoot ← readHash manifest 3
  let state ← importStateChunks stateImporter snapshotStorage
    stateChunkHashes stateRoot state
  let blockChunkHashes ← readAt manifest 2 toHashes
  let chain ← importBlockChunks blockChainImporter snapshotStorage
    blockChunkHashes chain
  return (⟨stateChunkHashes, blockChunkHashes, stateRoot, blockNumber,
    blockHash⟩, state, chain)

/-! ## The blocks that were passed on -/

/-- An importer of blocks that keeps what it was called with. -/
def recording {χ : Type} (blockChainImporter : BlockChainImporterFace χ) :
    BlockChainImporterFace (χ × List ImportedBlock) where
  importBlock block chain := do
    return (← blockChainImporter.importBlock block chain.1, chain.2 ++ [block])
  setChainStartBlockNumber number chain := do
    return (← blockChainImporter.setChainStartBlockNumber number chain.1,
      chain.2)

/-- A block is the one after a place in a chain. -/
structure Follows (place : Place) (block : ImportedBlock) : Prop where
  number : block.header.number = int64 (place.number + 1)
  parentHash : block.header.parentHash = place.hash
  totalDifficulty :
    block.totalDifficulty = place.totalDifficulty + block.header.difficulty

theorem int64_add_one (value : Int) :
    int64 (int64 value + 1) = int64 (value + 1) := by
  rw [int64, int64, int64, Int.bmod_add_bmod]

theorem int64_int64 (value : Int) : int64 (int64 value) = int64 value := by
  rw [int64, int64, Int.bmod_bmod]

/-- In the range of an `int64_t`, the next number gives the number away. -/
theorem int64_add_one_inj {one other : Int} (oneInRange : int64 one = one)
    (otherInRange : int64 other = other)
    (same : int64 (one + 1) = int64 (other + 1)) : one = other := by
  rw [← oneInRange, ← otherInRange]
  exact (Int.bmod_add_cancel_right 1).mp same

section

variable [Hashing]

/-- The place of a block. -/
def IsPlaceOf (place : Place) (block : ImportedBlock) : Prop :=
  place.number = block.header.number ∧ block.header.hash = .ok place.hash ∧
    place.totalDifficulty = block.totalDifficulty

/-- A block comes right after another one. -/
def Linked (previous block : ImportedBlock) : Prop :=
  ∃ place, IsPlaceOf place previous ∧ Follows place block

/-- Blocks lead from one place to another. -/
inductive Leads : Place → List ImportedBlock → Place → Prop where
  | here (place : Place) : Leads place [] place
  | further {start middle finish : Place} {block : ImportedBlock}
      {blocks : List ImportedBlock} (follows : Follows start block)
      (placed : IsPlaceOf middle block) (leads : Leads middle blocks finish) :
      Leads start (block :: blocks) finish

/-- A chunk of blocks: what it says of the block before its first one, its
blocks and the place of the last of them. -/
structure ImportedChunk where
  first : Place
  blocks : List ImportedBlock
  last : Place
  leads : Leads first blocks last
  inRange : int64 first.number = first.number

section

variable {χ : Type} {blockChainImporter : BlockChainImporterFace χ}

end

/-! ## Chains over the bounds of chunks -/

section

variable {place other start finish : Place} {block : ImportedBlock}
  {blocks : List ImportedBlock}

theorem IsPlaceOf.unique (one : IsPlaceOf place block)
    (another : IsPlaceOf other block) : place = other := by
  obtain ⟨number, hash, totalDifficulty⟩ := place
  obtain ⟨number', hash', totalDifficulty'⟩ := other
  obtain ⟨rfl, hashed, rfl⟩ := one
  obtain ⟨rfl, hashed', rfl⟩ := another
  rw [hashed] at hashed'
  cases hashed'
  rfl

omit [Hashing] in
/-- A block comes after one place only. -/
theorem Follows.unique (one : Follows place block)
    (another : Follows other block)
    (inRange : int64 place.number = place.number)
    (inRange' : int64 other.number = other.number) : place = other := by
  have number := int64_add_one_inj inRange inRange'
    (one.number.symm.trans another.number)
  have hash := one.parentHash.symm.trans another.parentHash
  have totalDifficulty := one.totalDifficulty.symm.trans
    another.totalDifficulty
  rw [BitVec.add_left_inj] at totalDifficulty
  obtain ⟨_, _, _⟩ := place
  obtain ⟨_, _, _⟩ := other
  cases number
  cases hash
  cases totalDifficulty
  rfl

namespace Leads

theorem head (leads : Leads start blocks finish)
    (first : block ∈ blocks.head?) : Follows start block := by
  cases leads with
  | here => cases first
  | further follows placed leads =>
      cases first
      exact follows

theorem getLast (leads : Leads start blocks finish)
    (last : block ∈ blocks.getLast?) : IsPlaceOf finish block := by
  induction leads with
  | here => cases last
  | further follows placed leads induction =>
      cases leads with
      | here =>
          cases last
          exact placed
      | further follows' placed' leads' =>
          apply induction
          rw [List.getLast?_cons_cons] at last
          exact last

theorem inRange (leads : Leads start blocks finish)
    (starts : int64 start.number = start.number) :
    int64 finish.number = finish.number := by
  induction leads with
  | here => exact starts
  | further follows placed leads induction =>
      apply induction
      rw [placed.1, follows.number, int64_int64]

end Leads

/-- The chunks that hold any blocks. -/
def nonempty (chunks : List ImportedChunk) : List ImportedChunk :=
  chunks.filter fun chunk => !chunk.blocks.isEmpty

end

end

/-! ## Two chunks with a block each -/

def snapshotSampleHashing : Hashing where
  sha3 content := hashOfNat (fromBigEndian content + content.length)
  trieRoot _ := hashOfNat 0

attribute [local instance] snapshotSampleHashing

/-- An importer of a state that is there already. -/
def stateImporterSample : StateImporterFace Unit where
  importAccount _ _ _ _ _ _ := .ok ()
  importCode code _ := .ok (sha3 code, ())
  commitStateDatabase _ := .ok ()
  isAccountImported _ _ := .ok false
  stateRoot _ := hashOfNat 7
  lookupCode _ _ := []

def blockChainImporterSample : BlockChainImporterFace Unit where
  importBlock _ _ := .ok ()
  setChainStartBlockNumber _ _ := .ok ()

/-- A chunk with a block after the block with the given number. -/
def blockChunkSample (number : UInt8) : Item :=
  .list [.data [number], .data (hashOfNat 3).val, .data [4], .list [
    .list [.data (zeroHash 20).val, .data (hashOfNat 9).val,
      .data (zeroHash 256).val, .data [10], .data [11], .data [], .data [12],
      .data [], .list [], .list [], .data (zeroHash 32).val,
      .data (zeroHash 8).val],
    .list []]]

def unlinkedSample : SnapshotStorageFace where
  readManifest := .ok (Item.list [.data [2], .list [],
    .list [.data (hashOfNat 1).val, .data (hashOfNat 2).val],
    .data (hashOfNat 7).val, .data [20], .data (hashOfNat 8).val]).encode
  readChunk hash :=
    if hash = hashOfNat 1 then .ok (blockChunkSample 5).encode
    else if hash = hashOfNat 2 then .ok (blockChunkSample 5).encode
    else .error (.other "FailedToReadChunkFile")

/-- What is left of a run: the manifest and the blocks. -/
def importedSample : Option (Manifest × List ImportedBlock) :=
  match importSnapshot stateImporterSample (recording blockChainImporterSample)
      unlinkedSample () ((), []) with
  | .ok (manifest, _, _, blocks) => some (manifest, blocks)
  | .error _ => none

theorem importedSample_isSome : importedSample.isSome = true := by
  decide +kernel

def blockSample (position : Nat) : ImportedBlock :=
  (importedSample.get importedSample_isSome).2.getD position
    { header := {}, transactions := [], uncles := [], receipts := []
      totalDifficulty := 0 }

end SnapshotImporter

end Aecmio
