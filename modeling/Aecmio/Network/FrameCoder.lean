import Aecmio.Logic.Lockstep
import Aecmio.Rlp.Fields
import Aecmio.State.Database

/-!
# The RLPx frame coder

A frame is a header of sixteen bytes and a payload, each encrypted and
followed by sixteen bytes of a MAC.  The coder of each end keeps, for each
direction, the position in a key stream and a chain of MACs over everything
that went that way.
-/

namespace Aecmio

abbrev H128 := FixedHash 16

/-- The private and public keys of `libdevcrypto`. -/
abbrev Secret := FixedHash 32

abbrev Public := FixedHash 64

structure KeyPair where
  pub : Public
  secret : Secret
deriving DecidableEq

/-- What the coder uses of Crypto++ and of the key agreement: the key stream
of AES-CTR with a zero initial vector, one block of AES, and
`crypto::ecdh::agree`. -/
class SessionCrypto where
  keyStream : H256 → Nat → UInt8
  encryptBlock : H256 → H128 → H128
  agree : Secret → Public → Option Secret

export SessionCrypto (keyStream encryptBlock agree)

/-- `operator^` of `FixedHash`. -/
def xorHash {size : Nat} (left right : FixedHash size) : FixedHash size :=
  ⟨List.zipWith (· ^^^ ·) left.val right.val, by
    simp [left.property, right.property]⟩

/-- The hash at the start of some bytes. -/
def hashAt (size : Nat) (view : Bytes) : FixedHash size :=
  ⟨view.takeD size 0, by simp⟩

theorem hashAt_val {size : Nat} (hash : FixedHash size) :
    hashAt size hash.val = hash := by
  apply Subtype.ext
  have fits : size ≤ hash.val.length := Nat.le_of_eq hash.property.symm
  simp only [hashAt]
  rw [List.takeD_eq_take _ fits]
  exact List.take_of_length_le (Nat.le_of_eq hash.property)

/-- `CryptoPP::CTR_Mode<CryptoPP::AES>::Encryption`. -/
structure CtrMode where
  key : H256
  position : Nat := 0
deriving DecidableEq

/-- `CryptoPP::Keccak_256`: what has been absorbed. -/
structure Keccak256 where
  absorbed : Bytes := []
deriving DecidableEq

namespace Keccak256

def update (mac : Keccak256) (input : Bytes) : Keccak256 :=
  ⟨mac.absorbed ++ input⟩

/-- `TruncatedFinal` of a copy, sixteen bytes. -/
def digest [Hashing] (mac : Keccak256) : H128 :=
  hashAt 16 (sha3 mac.absorbed).val

end Keccak256

/-- `CTR_Mode::ProcessData`. -/
def CtrMode.processData [SessionCrypto] (mode : CtrMode) (text : Bytes) :
    Bytes × CtrMode :=
  (text.mapIdx fun offset byte =>
      byte ^^^ keyStream mode.key (mode.position + offset),
    { mode with position := mode.position + text.length })

/-! ## Frame headers -/

/-- `RLPXFrameInfo`. -/
structure RLPXFrameInfo where
  length : Nat
  padding : Nat
  data : Bytes
  protocolId : Nat
  multiFrame : Bool
  sequenceId : Nat
  totalLength : Nat
deriving DecidableEq

def RLPXFrameInfo.ofHeader (header : Bytes) : Except RLPError RLPXFrameInfo := do
  let length := ((header.getD 0 0).toNat * 256 + (header.getD 1 0).toNat) *
    256 + (header.getD 2 0).toNat
  let padding := (16 - length % 16) % 16
  let data := RLP.croppedFrom header 3
  let view ← RLP.construct data .throwIfTooSmall
  let protocolId ← RLP.toInt .uint16 (← RLP.at_ view 0)
  let multiFrame : Bool := 1 < (← RLP.itemCount view)
  let sequenceId ←
    if multiFrame then do RLP.toInt .uint16 (← RLP.at_ view 1) else pure 0
  let totalLength ←
    if (← RLP.itemCount view) = 3 then do
      RLP.toInt .uint32 (← RLP.at_ view 2)
    else pure 0
  return ⟨length, padding, data, protocolId, multiFrame, sequenceId,
    totalLength⟩

/-! ## The coder -/

inductive FrameError where
  | ecdheError
  | rlp (error : RLPError)
  | headerDecryptFailed
  | frameDecryptFailed
deriving DecidableEq, Repr

/-- `RLPXFrameCoderImpl`.  The keys of `frameEnc` and `frameDec` are in these;
`macEnc` is the key of the block cipher. -/
structure RLPXFrameCoder where
  frameEnc : CtrMode
  frameDec : CtrMode
  macEnc : H256
  egressMac : Keccak256
  ingressMac : Keccak256
deriving DecidableEq

section

variable [Hashing] [SessionCrypto]

/-- `updateMAC`; no seed is the digest itself. -/
def updateMAC (macEnc : H256) (mac : Keccak256) (seed : Bytes := []) :
    Keccak256 :=
  let prevDigestOut := mac.digest
  let encDigest := encryptBlock macEnc prevDigestOut
  let mixed :=
    if seed.isEmpty then xorHash encDigest prevDigestOut
    else xorHash encDigest (hashAt 16 seed)
  mac.update mixed.val

namespace RLPXFrameCoder

def setup (originated : Bool) (remoteEphemeral : Public) (remoteNonce : H256)
    (ecdheLocal : KeyPair) (nonce : H256) (ackCipher authCipher : Bytes) :
    Except FrameError RLPXFrameCoder :=
  match agree ecdheLocal.secret remoteEphemeral with
  | none => .error .ecdheError
  | some ephemeralShared =>
      let leftNonce := if originated then remoteNonce else nonce
      let rightNonce := if originated then nonce else remoteNonce
      let nonceMaterial := leftNonce.val ++ rightNonce.val
      let keyMaterial (out : H256) := ephemeralShared.val ++ out.val
      let nonces := sha3 nonceMaterial
      let sharedSecret := sha3 (keyMaterial nonces)
      let aesSecret := sha3 (keyMaterial sharedSecret)
      let macSecret := sha3 (keyMaterial aesSecret)
      let egressKey := xorHash macSecret remoteNonce
      let egressCipher := if originated then authCipher else ackCipher
      -- the MAC secret is recovered by mixing the remote nonce in again
      let ingressKey := xorHash (xorHash egressKey remoteNonce) nonce
      let ingressCipher := if originated then ackCipher else authCipher
      .ok {
        frameEnc := { key := aesSecret }
        frameDec := { key := aesSecret }
        macEnc := macSecret
        egressMac := Keccak256.update {} (egressKey.val ++ egressCipher)
        ingressMac := Keccak256.update {} (ingressKey.val ++ ingressCipher) }

def egressDigest (coder : RLPXFrameCoder) : H128 := coder.egressMac.digest

def ingressDigest (coder : RLPXFrameCoder) : H128 := coder.ingressMac.digest

def updateEgressMACWithHeader (coder : RLPXFrameCoder) (headerCipher : Bytes) :
    RLPXFrameCoder :=
  { coder with egressMac :=
      updateMAC coder.macEnc coder.egressMac (headerCipher.take 16) }

def updateEgressMACWithFrame (coder : RLPXFrameCoder) (cipher : Bytes) :
    RLPXFrameCoder :=
  { coder with egressMac :=
      updateMAC coder.macEnc (coder.egressMac.update cipher) }

def updateIngressMACWithHeader (coder : RLPXFrameCoder)
    (headerCipher : Bytes) : RLPXFrameCoder :=
  { coder with ingressMac :=
      updateMAC coder.macEnc coder.ingressMac (headerCipher.take 16) }

def updateIngressMACWithFrame (coder : RLPXFrameCoder) (cipher : Bytes) :
    RLPXFrameCoder :=
  { coder with ingressMac :=
      updateMAC coder.macEnc (coder.ingressMac.update cipher) }

/-- `frameEnc.ProcessData`. -/
def encrypt (coder : RLPXFrameCoder) (text : Bytes) : Bytes × RLPXFrameCoder :=
  let (cipher, frameEnc) := coder.frameEnc.processData text
  (cipher, { coder with frameEnc })

/-- `frameDec.ProcessData`. -/
def decrypt (coder : RLPXFrameCoder) (cipher : Bytes) :
    Bytes × RLPXFrameCoder :=
  let (text, frameDec) := coder.frameDec.processData cipher
  (text, { coder with frameDec })

/-- `writeFrame(RLPStream const&, bytesConstRef, bytes&)`. -/
def writeFrameWith (coder : RLPXFrameCoder) (header : RLPStream)
    (payload : Bytes) : Except RLPError (Bytes × RLPXFrameCoder) := do
  let headerWithMac := (← header.result).takeD 32 0
  let (headerCipher, coder) := coder.encrypt (headerWithMac.take 16)
  let coder := coder.updateEgressMACWithHeader headerCipher
  let headerMac := coder.egressDigest
  let padding := (16 - payload.length % 16) % 16
  let (packet, coder) := coder.encrypt payload
  let (paddingCipher, coder) := coder.encrypt (List.replicate padding 0)
  let coder := coder.updateEgressMACWithFrame (packet ++ paddingCipher)
  return (headerCipher ++ headerMac.val ++ packet ++ paddingCipher ++
    coder.egressDigest.val, coder)

/-- The three bytes in front of every header. -/
def frameSize (payload : Bytes) : Bytes :=
  let len := payload.length % 2 ^ 32
  [UInt8.ofNat (len >>> 16), UInt8.ofNat (len >>> 8), UInt8.ofNat len]

/-- `writeFrame(uint16_t, bytesConstRef, bytes&)`. -/
def writeFrame (coder : RLPXFrameCoder) (protocolType : UInt16)
    (payload : Bytes) : Except RLPError (Bytes × RLPXFrameCoder) := do
  let header ← RLPStream.appendRaw (frameSize payload) 1 {}
  let header ← header.appendList 1
  let header ← header.appendInt protocolType.toNat
  coder.writeFrameWith header payload

/-- `writeFrame(uint16_t, uint16_t, bytesConstRef, bytes&)`. -/
def writeContinuationFrame (coder : RLPXFrameCoder)
    (protocolType seqId : UInt16) (payload : Bytes) :
    Except RLPError (Bytes × RLPXFrameCoder) := do
  let header ← RLPStream.appendRaw (frameSize payload) 1 {}
  let header ← header.appendList 2
  let header ← header.appendInt protocolType.toNat
  let header ← header.appendInt seqId.toNat
  coder.writeFrameWith header payload

/-- `writeFrame(uint16_t, uint16_t, uint32_t, bytesConstRef, bytes&)`. -/
def writeFirstFrame (coder : RLPXFrameCoder) (protocolType seqId : UInt16)
    (totalSize : UInt32) (payload : Bytes) :
    Except RLPError (Bytes × RLPXFrameCoder) := do
  let header ← RLPStream.appendRaw (frameSize payload) 1 {}
  let header ← header.appendList 3
  let header ← header.appendInt protocolType.toNat
  let header ← header.appendInt seqId.toNat
  let header ← header.appendInt totalSize.toNat
  coder.writeFrameWith header payload

def writeSingleFramePacket (coder : RLPXFrameCoder) (packet : Bytes) :
    Except RLPError (Bytes × RLPXFrameCoder) := do
  let header ← RLPStream.appendRaw (frameSize packet) 1 {}
  let header ← header.appendRaw [0xc2, 0x80, 0x80] 1
  coder.writeFrameWith header packet

/-- The decrypted header, `none` where the MAC is wrong. -/
def authAndDecryptHeader (coder : RLPXFrameCoder) (io : Bytes) :
    Option Bytes × RLPXFrameCoder :=
  let coder := coder.updateIngressMACWithHeader io
  if hashAt 16 (io.drop 16) ≠ coder.ingressDigest then (none, coder)
  else
    let (text, coder) := coder.decrypt (io.take 16)
    (some (text ++ io.drop 16), coder)

/-- The decrypted frame, `none` where the MAC is wrong. -/
def authAndDecryptFrame (coder : RLPXFrameCoder) (io : Bytes) :
    Option Bytes × RLPXFrameCoder :=
  let cipherText := io.take (io.length - 16)
  let coder := coder.updateIngressMACWithFrame cipherText
  if hashAt 16 (io.drop (io.length - 16)) ≠ coder.ingressDigest then
    (none, coder)
  else
    let (text, coder) := coder.decrypt cipherText
    (some (text ++ io.drop (io.length - 16)), coder)

end RLPXFrameCoder

end

end Aecmio
