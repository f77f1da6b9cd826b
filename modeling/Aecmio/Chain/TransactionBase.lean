import Aecmio.State.Database
import Aecmio.Rlp.Fields

/-!
# Transactions and their bytes

`TransactionBase` is read from an RLP list of nine items.  The signature has
its own folding of the chain id: `v` is 27 or 28, or the chain id is in it, or
`r` and `s` are zero and it is the chain id itself.
-/

namespace Aecmio

open Item RLP

/-- `int` from its 32 bits. -/
def intOfNat (value : Nat) : Int :=
  if 2 ^ 31 ≤ value then (value : Int) - 2 ^ 32 else value

/-- `toInt<int>()`. -/
def toInt32 (view : Bytes) : Except RLPError Int := do
  return intOfNat (← RLP.toInt .uint32 view)

structure SignatureStruct where
  r : U256 := 0
  s : U256 := 0
  v : UInt8 := 0
deriving DecidableEq

/-- The order of the group of the curve. -/
def secp256k1n : U256 :=
  0xfffffffffffffffffffffffffffffffebaaedce6af48a03bbfd25e8cd0364141

def SignatureStruct.isValid (signature : SignatureStruct) : Bool :=
  signature.v ≤ 1 ∧ 0 < signature.r ∧ 0 < signature.s ∧
    signature.r < secp256k1n ∧ signature.s < secp256k1n

inductive CheckTransaction where
  | none
  | cheap
  | everything
deriving DecidableEq

inductive IncludeSignature where
  | withoutSignature
  | withSignature
deriving DecidableEq

inductive TransactionType where
  | nullTransaction
  | contractCreation
  | messageCall
deriving DecidableEq

inductive TransactionError where
  | rlp (error : RLPError)
  | invalidTransactionFormat (comment : String)
  | invalidSignature
  | transactionIsUnsigned
deriving DecidableEq

structure TransactionBase where
  type : TransactionType := .nullTransaction
  nonce : U256 := 0
  value : U256 := 0
  receiveAddress : Address := ⟨List.replicate 20 0, length_zeroes_address⟩
  gasPrice : U256 := 0
  gas : U256 := 0
  data : Bytes := []
  vrs : Option SignatureStruct := none
  chainId : Int := -4
  /-- The cached sender, all zeros as long as it is not known. -/
  sender : Address := ⟨List.replicate 20 0, length_zeroes_address⟩
deriving DecidableEq

/-- `recover`, the public key of a signature of a hash, and `sha3` of it cut
to an address. -/
class Recovering where
  recover : SignatureStruct → H256 → Option Address

namespace TransactionBase

def zeroAddress : Address := ⟨List.replicate 20 0, length_zeroes_address⟩

def maxAddress : Address := ⟨List.replicate 20 0xff, by simp⟩

def isZeroSignature (r s : U256) : Bool := r = 0 ∧ s = 0

def hasZeroSignature (transaction : TransactionBase) : Bool :=
  match transaction.vrs with
  | some signature => isZeroSignature signature.r signature.s
  | none => false

/-- `streamRLP`.  An `int` is appended as `unsigned`. -/
def streamRLP (transaction : TransactionBase)
    (includeSignature : IncludeSignature) (forEip155hash : Bool)
    (stream : RLPStream) : Except TransactionError RLPStream := do
  if transaction.type = .nullTransaction then return stream
  let stream ← (stream.appendList
    ((if includeSignature = .withSignature ∨ forEip155hash then 3 else 0) + 6)
      ).mapError .rlp
  let stream ← (stream.appendInt transaction.nonce.toNat).mapError .rlp
  let stream ← (stream.appendInt transaction.gasPrice.toNat).mapError .rlp
  let stream ← (stream.appendInt transaction.gas.toNat).mapError .rlp
  let stream ← (stream.append (if transaction.type = .messageCall
    then transaction.receiveAddress.val else [])).mapError .rlp
  let stream ← (stream.appendInt transaction.value.toNat).mapError .rlp
  let stream ← (stream.append transaction.data).mapError .rlp
  if includeSignature = .withSignature then
    match transaction.vrs with
    | none => throw .transactionIsUnsigned
    | some signature =>
        let v := if transaction.hasZeroSignature then transaction.chainId
          else signature.v.toNat + (transaction.chainId * 2 + 35)
        let stream ← (stream.appendInt (v % 2 ^ 32)).mapError .rlp
        let stream ← (stream.appendInt signature.r.toNat).mapError .rlp
        (stream.appendInt signature.s.toNat).mapError .rlp
  else if forEip155hash then
    let stream ←
      (stream.appendInt (transaction.chainId % 2 ^ 32)).mapError .rlp
    let stream ← (stream.appendInt 0).mapError .rlp
    (stream.appendInt 0).mapError .rlp
  else return stream

/-- `rlp()`. -/
def rlp (transaction : TransactionBase)
    (includeSignature : IncludeSignature) (forEip155hash : Bool := false) :
    Except TransactionError Bytes := do
  let stream ← transaction.streamRLP includeSignature forEip155hash {}
  stream.result.mapError .rlp

/-- `sha3()`, whose memo is this hash. -/
def hash [Hashing] (transaction : TransactionBase)
    (includeSignature : IncludeSignature) : Except TransactionError H256 := do
  let forEip155hash := decide (0 < transaction.chainId ∧
    includeSignature = .withoutSignature)
  return sha3 (← transaction.rlp includeSignature forEip155hash)

/-- `sender()`, of a transaction whose sender is not cached. -/
def recoverSender [Hashing] [Recovering] (transaction : TransactionBase) :
    Except TransactionError Address := do
  if transaction.hasZeroSignature then return maxAddress
  match transaction.vrs with
  | none => throw .transactionIsUnsigned
  | some signature =>
      match Recovering.recover signature
        (← transaction.hash .withoutSignature) with
      | none => throw .invalidSignature
      | some address => return address

/-- `BOOST_THROW_EXCEPTION` unless a condition holds. -/
def require (holds : Bool) (error : TransactionError) :
    Except TransactionError Unit :=
  if holds then .ok () else .error error

/-- The chain id that is folded into the item before `r` and `s`. -/
def chainIdOf (v : Int) : Except TransactionError Int :=
  if 36 < v then .ok ((v - 35) / 2)
  else if v = 27 ∨ v = 28 then .ok (-4)
  else .error .invalidSignature

/-- The chain id and the signature of the last items. -/
def unfold (checkSig : CheckTransaction) (v : Int) (r s : U256) :
    Except TransactionError (Int × SignatureStruct) :=
  if isZeroSignature r s then .ok (v, ⟨r, s, 0⟩)
  else do
    let chainId ← chainIdOf v
    let signature : SignatureStruct :=
      ⟨r, s, UInt8.ofNat ((v - (chainId * 2 + 35)) % 256).toNat⟩
    require (checkSig = .none ∨ signature.isValid) .invalidSignature
    return (chainId, signature)

/-- A conversion of an item of the list. -/
def field {α : Type} (rlp : Bytes) (position : Nat)
    (read : Bytes → Except RLPError α) : Except TransactionError α :=
  ((RLP.at_ rlp position).bind read).mapError .rlp

/-- `rlp[3].isEmpty() ? Address() : rlp[3].toHash<Address>(RLP::VeryStrict)`. -/
def toReceiver (item : Bytes) : Except RLPError Address :=
  if RLP.isEmpty item then .ok zeroAddress
  else RLP.toHash 20 item .veryStrict

/-- The sender that is cached by the constructor. -/
def senderOf [Hashing] [Recovering] (checkSig : CheckTransaction)
    (transaction : TransactionBase) : Except TransactionError Address :=
  if checkSig = .everything then transaction.recoverSender
  else .ok zeroAddress

/-- `TransactionBase(_rlpData, _checkSig)`. -/
def ofRlp [Hashing] [Recovering] (rlpData : Bytes)
    (checkSig : CheckTransaction) :
    Except TransactionError TransactionBase := do
  let rlp ← (RLP.construct rlpData .veryStrict).mapError .rlp
  require (RLP.isList rlp)
    (.invalidTransactionFormat "transaction RLP must be a list")
  let nonce ← field rlp 0 (RLP.toInt .u256 ·)
  let gasPrice ← field rlp 1 (RLP.toInt .u256 ·)
  let gas ← field rlp 2 (RLP.toInt .u256 ·)
  let isCreation ← field rlp 3 fun item => .ok (RLP.isEmpty item)
  let receiveAddress ← field rlp 3 toReceiver
  let value ← field rlp 4 (RLP.toInt .u256 ·)
  let isData ← field rlp 5 fun item => .ok (RLP.isData item)
  require isData
    (.invalidTransactionFormat "transaction data RLP must be an array")
  let data ← field rlp 5 (RLP.toBytes ·)
  let v ← field rlp 6 toInt32
  let r ← field rlp 7 (RLP.toInt .u256 ·)
  let s ← field rlp 8 (RLP.toInt .u256 ·)
  let (chainId, signature) ←
    unfold checkSig v (BitVec.ofNat 256 r) (BitVec.ofNat 256 s)
  let transaction : TransactionBase := {
    type := if isCreation then .contractCreation else .messageCall
    nonce := BitVec.ofNat 256 nonce
    value := BitVec.ofNat 256 value
    receiveAddress
    gasPrice := BitVec.ofNat 256 gasPrice
    gas := BitVec.ofNat 256 gas
    data
    vrs := some signature
    chainId }
  let sender ← senderOf checkSig transaction
  let count ← (RLP.itemCount rlp).mapError .rlp
  require (count ≤ 9) (.invalidTransactionFormat
    "too many fields in the transaction RLP")
  return { transaction with sender }

end TransactionBase

end Aecmio
