import Aecmio.Chain.BlockHeader
import Aecmio.Trie.TrieHash

/-!
# Logs and receipts

A receipt holds the logs of a transaction, their bloom filter, the gas used
so far in the block and either a status code or a state root.  A block
commits to its receipts by the root of the trie that maps the RLP of each
index to the RLP of the receipt.
-/

namespace Aecmio

/-- `operator|` of `FixedHash`. -/
def FixedHash.union {size : Nat} (first second : FixedHash size) :
    FixedHash size :=
  ⟨List.zipWith (· ||| ·) first.val second.val, by
    rw [List.length_zipWith, first.property, second.property, min_self]⟩

structure LogEntry where
  address : Address
  topics : List H256
  data : Bytes
deriving DecidableEq

/-- The bit of a bloom filter that two bytes of a hash select. -/
def bloomBit (high low : UInt8) : LogBloom :=
  let index := (high.toNat * 256 + low.toNat) % 2048
  ⟨(List.replicate 256 0).set (255 - index / 8)
    (UInt8.ofNat (2 ^ (index % 8))), by
      rw [List.length_set, List.length_replicate]⟩

/-- `bloomPart<3, 256>`. -/
def bloomPart (hash : H256) : LogBloom :=
  (List.range 3).foldl
    (fun bloom part => bloom.union
      (bloomBit (hash.val.getD (2 * part) 0) (hash.val.getD (2 * part + 1) 0)))
    (zeroHash 256)

namespace LogEntry

def streamRLP (entry : LogEntry) (stream : RLPStream) :
    Except RLPError RLPStream := do
  let stream ← stream.appendList 3
  let stream ← stream.append entry.address.val
  let stream ← stream.appendList entry.topics.length
  let stream ← entry.topics.foldlM
    (fun stream topic => stream.append topic.val) stream
  stream.append entry.data

def bloom [Hashing] (entry : LogEntry) : LogBloom :=
  entry.topics.foldl
    (fun bloom topic => bloom.union (bloomPart (sha3 topic.val)))
    (bloomPart (sha3 entry.address.val))

end LogEntry

/-- `bloom(LogEntries)`. -/
def logsBloom [Hashing] (logs : List LogEntry) : LogBloom :=
  logs.foldl (fun bloom entry => bloom.union entry.bloom) (zeroHash 256)

inductive StatusOrRoot where
  | statusCode (status : UInt8)
  | stateRoot (root : H256)
deriving DecidableEq

structure TransactionReceipt where
  statusCodeOrStateRoot : StatusOrRoot
  cumulativeGasUsed : U256
  bloom : LogBloom
  log : List LogEntry
deriving DecidableEq

namespace TransactionReceipt

/-- Both constructors from values: the bloom is that of the logs. -/
def ofLogs [Hashing] (statusCodeOrStateRoot : StatusOrRoot) (gasUsed : U256)
    (log : List LogEntry) : TransactionReceipt where
  statusCodeOrStateRoot
  cumulativeGasUsed := gasUsed
  bloom := logsBloom log
  log

def streamRLP (receipt : TransactionReceipt) (stream : RLPStream) :
    Except RLPError RLPStream := do
  let stream ← stream.appendList 4
  let stream ← match receipt.statusCodeOrStateRoot with
    | .statusCode status => stream.appendInt status.toNat
    | .stateRoot root => stream.append root.val
  let stream ← stream.appendInt receipt.cumulativeGasUsed.toNat
  let stream ← stream.append receipt.bloom.val
  let stream ← stream.appendList receipt.log.length
  receipt.log.foldlM (fun stream entry => entry.streamRLP stream) stream

def rlp (receipt : TransactionReceipt) : Except RLPError Bytes := do
  (← receipt.streamRLP {}).result

end TransactionReceipt

/-- `rlp(unsigned)`. -/
def indexKey (index : Nat) : Except RLPError Bytes := do
  (← RLPStream.appendInt (index % 2 ^ 32 : Nat) {}).result

/-- The map that `orderedTrieRoot` fills, from the index on. -/
def orderedMap : Nat → List Bytes → BytesMap → Except RLPError BytesMap
  | _, [], map => return map
  | index, text :: texts, map => do
      orderedMap (index + 1) texts (map.insert (← indexKey index) text)

def orderedTrieRoot [Hashing] (data : List Bytes) : Except RLPError H256 := do
  hash256 sha3 (← orderedMap 0 data ∅)

end Aecmio
