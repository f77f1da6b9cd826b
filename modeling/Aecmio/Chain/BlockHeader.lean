import Aecmio.State.Database

/-!
# Block headers

`BlockHeader` is filled from thirteen fields of an RLP list and the seal
after them.  Its hash is memoised: a header that was read from a block keeps
the hash it was read with, and any setter drops it.
-/

namespace Aecmio

abbrev LogBloom := FixedHash 256

/-- `FixedHash<N>()`. -/
def zeroHash (size : Nat) : FixedHash size :=
  ⟨List.replicate size 0, length_zeroes size⟩

/-- The constructor of `FixedHash` from bytes: zero if there are too many or
too few. -/
def FixedHash.ofBytes (size : Nat) (content : Bytes) : FixedHash size :=
  if fits : content.length = size then ⟨content, fits⟩ else zeroHash size

theorem FixedHash.ofBytes_val {size : Nat} (hash : FixedHash size) :
    FixedHash.ofBytes size hash.val = hash :=
  dif_pos hash.property

inductive IncludeSeal where
  | withoutSeal
  | withSeal
deriving DecidableEq

structure BlockHeader where
  parentHash : H256 := zeroHash 32
  sha3Uncles : H256 := zeroHash 32
  author : Address := zeroHash 20
  stateRoot : H256 := zeroHash 32
  transactionsRoot : H256 := zeroHash 32
  receiptsRoot : H256 := zeroHash 32
  logBloom : LogBloom := zeroHash 256
  difficulty : U256 := 0
  /-- An `int64_t`, as is the timestamp. -/
  number : Int := 0
  gasLimit : U256 := 0
  gasUsed : U256 := 0
  timestamp : Int := -1
  extraData : Bytes := []
  /-- Additional header fields, each in RLP. -/
  seals : List Bytes := []
  /-- `m_hash`, zero as long as it is not known. -/
  memo : H256 := zeroHash 32
deriving DecidableEq

/-- The exceptions of header checks. -/
inductive HeaderError where
  | rlp (error : RLPError)
  | invalidBlockFormat (comment : String)
  | invalidNumber
  | invalidParentHash
  | invalidTimestamp
deriving DecidableEq

namespace BlockHeader

/-- `operator bool`: the timestamp is not that of a cleared header. -/
def isSet (header : BlockHeader) : Bool := header.timestamp ≠ -1

def noteDirty (header : BlockHeader) : BlockHeader :=
  { header with memo := zeroHash 32 }

/-- The two `int64_t` fields are written as `unsigned`. -/
def streamRLPFields (header : BlockHeader) (stream : RLPStream) :
    Except RLPError RLPStream := do
  let stream ← stream.append header.parentHash.val
  let stream ← stream.append header.sha3Uncles.val
  let stream ← stream.append header.author.val
  let stream ← stream.append header.stateRoot.val
  let stream ← stream.append header.transactionsRoot.val
  let stream ← stream.append header.receiptsRoot.val
  let stream ← stream.append header.logBloom.val
  let stream ← stream.appendInt header.difficulty.toNat
  let stream ← stream.appendInt (header.number % 2 ^ 32)
  let stream ← stream.appendInt header.gasLimit.toNat
  let stream ← stream.appendInt header.gasUsed.toNat
  let stream ← stream.appendInt (header.timestamp % 2 ^ 32)
  stream.append header.extraData

def streamRLP (header : BlockHeader) (includeSeal : IncludeSeal)
    (stream : RLPStream) : Except RLPError RLPStream := do
  let seals := if includeSeal = .withSeal then header.seals else []
  let stream ← stream.appendList (13 + seals.length)
  let stream ← header.streamRLPFields stream
  seals.foldlM (fun stream field => stream.appendRaw field 1) stream

/-- `hash(WithSeal)`. -/
def hash [Hashing] (header : BlockHeader) : Except RLPError H256 :=
  if header.memo = zeroHash 32 then do
    let stream ← header.streamRLP .withSeal {}
    return sha3 (← stream.result)
  else return header.memo

/-- `RLP::toPositiveInt64`. -/
def toPositiveInt64 (view : Bytes) : Except RLPError Int := do
  let value ← RLP.toInt .uint64 view
  if 2 ^ 63 ≤ value then throw .badCast
  return value

/-- `BlockHeader(_data, HeaderData, _hashWith)` with a hash that is known. -/
def populate (view : Bytes) (hashWith : H256) : Except RLPError BlockHeader := do
  let header ← RLP.construct view .veryStrict
  let parentHash ← RLP.toHash 32 (← RLP.at_ header 0) .veryStrict
  let sha3Uncles ← RLP.toHash 32 (← RLP.at_ header 1) .veryStrict
  let author ← RLP.toHash 20 (← RLP.at_ header 2) .veryStrict
  let stateRoot ← RLP.toHash 32 (← RLP.at_ header 3) .veryStrict
  let transactionsRoot ← RLP.toHash 32 (← RLP.at_ header 4) .veryStrict
  let receiptsRoot ← RLP.toHash 32 (← RLP.at_ header 5) .veryStrict
  let logBloom ← RLP.toHash 256 (← RLP.at_ header 6) .veryStrict
  let difficulty ← RLP.toInt .u256 (← RLP.at_ header 7)
  let number ← toPositiveInt64 (← RLP.at_ header 8)
  let gasLimit ← RLP.toInt .u256 (← RLP.at_ header 9)
  let gasUsed ← RLP.toInt .u256 (← RLP.at_ header 10)
  let timestamp ← toPositiveInt64 (← RLP.at_ header 11)
  let extraData ← RLP.toBytes (← RLP.at_ header 12)
  let seals ← (List.range' 13 ((← RLP.itemCount header) - 13)).mapM
    (RLP.at_ header)
  return {
    parentHash, sha3Uncles, author, stateRoot, transactionsRoot,
    receiptsRoot, logBloom, number, timestamp, extraData, seals
    difficulty := BitVec.ofNat 256 difficulty
    gasLimit := BitVec.ofNat 256 gasLimit
    gasUsed := BitVec.ofNat 256 gasUsed
    memo := hashWith }

/-- `BlockHeader(_block)`: the header of a whole block. -/
def ofBlock [Hashing] (block : Bytes) : Except HeaderError BlockHeader := do
  let root ← (RLP.construct block .veryStrict).mapError .rlp
  if !RLP.isList root then
    throw (.invalidBlockFormat "Block must be a list")
  let header ← (RLP.at_ root 0).mapError .rlp
  if !RLP.isList header then
    throw (.invalidBlockFormat "Block header must be a list")
  if !RLP.isList (← (RLP.at_ root 1).mapError .rlp) then
    throw (.invalidBlockFormat "Block transactions must be a list")
  if !RLP.isList (← (RLP.at_ root 2).mapError .rlp) then
    throw (.invalidBlockFormat "Block uncles must be a list")
  (populate header (sha3 header)).mapError .rlp

/-- `verify(CheckNothingNew, _parent)`. -/
def verify [Hashing] (header parent : BlockHeader) :
    Except HeaderError Unit := do
  if 2 ^ 32 - 1 < header.number then throw .invalidNumber
  if parent.isSet then
    let parentHash ← parent.hash.mapError .rlp
    if header.parentHash ≠ zeroHash 32 ∧ parentHash ≠ header.parentHash then
      throw .invalidParentHash
    if header.timestamp ≤ parent.timestamp then throw .invalidTimestamp
    if header.number ≠ parent.number + 1 then throw .invalidNumber

end BlockHeader

/-- The block a transaction runs in. -/
structure EnvInfo where
  header : BlockHeader
  /-- `precedingHashes`: the hashes before a block, the most recent first. -/
  lastHashes : H256 → List H256
  gasUsed : U256

end Aecmio
