import Mathlib.Data.Finmap
import Aecmio.Rlp.RoundTrip

/-!
# The database under a state

The secure tries of a state are finite maps: a trie opened at a root holds
the map that was written under that root.  The overlay database never
forgets before its own commit, so it is the list of the maps and of the
contract codes written to it, found again by their hashes.
-/

namespace Aecmio

abbrev U256 := BitVec 256

abbrev Address := FixedHash 20

/-- What a secure trie holds, by unhashed key. -/
abbrev Contents := Finmap (fun _ : Bytes => Bytes)

/-- The hash function and the root of a secure trie with given contents. -/
class Hashing where
  sha3 : Bytes → H256
  trieRoot : Contents → H256

export Hashing (sha3 trieRoot)

inductive StateError where
  | rlp (error : RLPError)
  | rootNotFound
  | notEnoughCash
  | invalidAccountStartNonceInState
  | emptyChangeLog
deriving DecidableEq

/-- `EmptySHA3`. -/
def emptySHA3 [Hashing] : H256 := sha3 []

/-- `EmptyTrie`. -/
def emptyTrieRoot [Hashing] : H256 := trieRoot ∅

structure OverlayDB where
  tries : List Contents := []
  codes : List Bytes := []

namespace OverlayDB

variable [Hashing]

/-- The string stored under a hash, empty when there is none. -/
def lookup (db : OverlayDB) (hash : H256) : Bytes :=
  (db.codes.find? fun code => sha3 code = hash).getD []

/-- Opening a `SecureTrieDB` at a root.  The empty trie is initialised when
it is not there. -/
def openTrie (db : OverlayDB) (root : H256) : Except StateError Contents :=
  if root = emptyTrieRoot then .ok ∅
  else match db.tries.find? fun contents => trieRoot contents = root with
    | some contents => .ok contents
    | none => .error .rootNotFound

def insertCode (db : OverlayDB) (code : Bytes) : OverlayDB :=
  { db with codes := code :: db.codes }

def insertTrie (db : OverlayDB) (contents : Contents) : OverlayDB :=
  { db with tries := contents :: db.tries }

end OverlayDB

/-! ## What the tries hold -/

/-- The `h256` of a storage key. -/
def storageKey (key : U256) : Bytes := toBigEndian key.toNat 32

/-- `rlp(value)`. -/
def storageText (value : U256) : Except StateError Bytes :=
  match (do (← RLPStream.appendInt value.toNat {}).result :
      Except RLPError Bytes) with
  | .ok text => .ok text
  | .error error => .error (.rlp error)

/-- `payload.size() ? RLP(payload).toInt<u256>() : 0`. -/
def storageValue (payload : Bytes) : Except StateError U256 :=
  if payload.isEmpty then .ok 0
  else match (do
      let view ← RLP.construct payload .veryStrict
      RLP.toInt .u256 view : Except RLPError Nat) with
    | .ok value => .ok (BitVec.ofNat 256 value)
    | .error error => .error (.rlp error)

/-- The list that an account is stored as. -/
def accountText (nonce balance : U256) (storageRoot codeHash : H256) :
    Except StateError Bytes :=
  match (do
      let stream ← RLPStream.ofCount 4
      let stream ← stream.appendInt nonce.toNat
      let stream ← stream.appendInt balance.toNat
      let stream ← stream.append storageRoot.val
      let stream ← stream.append codeHash.val
      stream.result : Except RLPError Bytes) with
  | .ok text => .ok text
  | .error error => .error (.rlp error)

/-- The four fields read back by `State::account`. -/
structure AccountFields where
  nonce : U256
  balance : U256
  storageRoot : H256
  codeHash : H256
deriving DecidableEq

def accountFields (text : Bytes) : Except StateError AccountFields :=
  match (do
      let view ← RLP.construct text .veryStrict
      let nonce ← RLP.toInt .u256 (← RLP.at_ view 0)
      let balance ← RLP.toInt .u256 (← RLP.at_ view 1)
      let storageRoot ← RLP.toHash 32 (← RLP.at_ view 2)
      let codeHash ← RLP.toHash 32 (← RLP.at_ view 3)
      return ⟨BitVec.ofNat 256 nonce, BitVec.ofNat 256 balance, storageRoot,
        codeHash⟩ : Except RLPError AccountFields) with
  | .ok fields => .ok fields
  | .error error => .error (.rlp error)

/-! ## Reading back what was written -/

theorem bytesRequired_toNat_le (value : U256) :
    bytesRequired value.toNat ≤ 32 := by
  rw [bytesRequired_le_iff]
  have bound := value.isLt
  omega

theorem appendInt_toNat (value : U256) (stream : RLPStream) :
    stream.appendInt value.toNat =
      stream.append (RLPStream.intContent value.toNat) := by
  have short := bytesRequired_toNat_le value
  have length : (RLPStream.intContent value.toNat).length < sizeTRange := by
    rw [sizeTRange_eq]
    simp [RLPStream.intContent]
    omega
  rw [RLPStream.appendInt_eq stream (by omega), RLPStream.append_eq length]

/-- The encoding of a storage value. -/
def storageEncoding (value : U256) : Bytes :=
  Item.encodeData (RLPStream.intContent value.toNat)

theorem storageText_eq (value : U256) :
    storageText value = .ok (storageEncoding value) := by
  have short := bytesRequired_toNat_le value
  have written : RLPStream.appendInt value.toNat {} =
      .ok ⟨storageEncoding value, []⟩ := by
    rw [RLPStream.appendInt_eq _ (by omega)]
    rfl
  simp [storageText, written, RLPStream.result, bind, Except.bind]

theorem toInt_storageEncoding (value : U256) :
    RLP.toInt .u256 (storageEncoding value) = .ok value.toNat := by
  apply RLP.toInt_intContent
  have bound := value.isLt
  simp only [RLP.IntType.maxSize]
  omega

theorem storageEncoding_ne_nil (value : U256) :
    storageEncoding value ≠ [] := by
  have positive := Item.encodeData_pos (RLPStream.intContent value.toNat)
  exact List.ne_nil_of_length_pos positive

theorem storageValue_storageEncoding (value : U256) :
    storageValue (storageEncoding value) = .ok value := by
  have short := bytesRequired_toNat_le value
  have small : RLP.Readable (.data (RLPStream.intContent value.toNat)) := by
    simp [RLP.Readable, RLPStream.intContent, RLP.readLimit_eq]
    omega
  have constructed : RLP.construct (storageEncoding value) .veryStrict =
      .ok (storageEncoding value) := by
    have := RLP.construct_encode small
    simpa [Item.encode, storageEncoding] using this
  simp [storageValue, storageEncoding_ne_nil, constructed,
    toInt_storageEncoding, bind, Except.bind]


namespace AccountFields

/-- The account as a list of four strings. -/
def items (fields : AccountFields) : List Item :=
  [.data (RLPStream.intContent fields.nonce.toNat),
    .data (RLPStream.intContent fields.balance.toNat),
    .data fields.storageRoot.val, .data fields.codeHash.val]

def encoding (fields : AccountFields) : Bytes :=
  (Item.list fields.items).encode

theorem length_encodeData_le {content : Bytes} (short : content.length ≤ 32) :
    (Item.encodeData content).length ≤ 33 := by
  unfold Item.encodeData Item.lengthPrefix
  rw [if_pos (show content.length < 56 by omega)]
  split
  · omega
  · simp
    omega

theorem length_encodeAll_items (fields : AccountFields) :
    (Item.encodeAll fields.items).length ≤ 132 := by
  have nonce := bytesRequired_toNat_le fields.nonce
  have balance := bytesRequired_toNat_le fields.balance
  have first : (RLPStream.intContent fields.nonce.toNat).length ≤ 32 := by
    simpa [RLPStream.intContent] using nonce
  have second : (RLPStream.intContent fields.balance.toNat).length ≤ 32 := by
    simpa [RLPStream.intContent] using balance
  have third : fields.storageRoot.val.length ≤ 32 := by
    rw [fields.storageRoot.property]
  have fourth : fields.codeHash.val.length ≤ 32 := by
    rw [fields.codeHash.property]
  have sizes := And.intro (length_encodeData_le first)
    (And.intro (length_encodeData_le second)
      (And.intro (length_encodeData_le third) (length_encodeData_le fourth)))
  simp only [items, Item.encodeAll, Item.encode, List.length_append,
    List.length_nil]
  omega

theorem readable (fields : AccountFields) :
    (Item.encodeAll fields.items).length < RLP.readLimit := by
  have bound := fields.length_encodeAll_items
  rw [RLP.readLimit_eq]
  omega

theorem encoding_ne_nil (fields : AccountFields) : fields.encoding ≠ [] := by
  have longer := Item.length_lt_encodeList (Item.encodeAll fields.items)
  exact List.ne_nil_of_length_pos (by
    simp only [encoding, Item.encode]
    omega)

theorem length_encoding (fields : AccountFields) :
    fields.encoding.length < sizeTRange := by
  have bound := fields.length_encodeAll_items
  have header : (Item.lengthPrefix 0xc0
      (Item.encodeAll fields.items).length).length ≤ 9 :=
    Item.lengthPrefix_length_le (by omega)
  rw [sizeTRange_eq]
  simp only [encoding, Item.encode, Item.encodeList, List.length_append]
  omega

theorem accountText_eq (fields : AccountFields) :
    accountText fields.nonce fields.balance fields.storageRoot
      fields.codeHash = .ok fields.encoding := by
  let script : Script := .counted
    [.data (RLPStream.intContent fields.nonce.toNat),
      .data (RLPStream.intContent fields.balance.toNat),
      .data fields.storageRoot.val, .data fields.codeHash.val]
  have same : script.item.encode = fields.encoding := rfl
  have small : script.item.encode.length < sizeTRange := by
    rw [same]
    exact fields.length_encoding
  obtain ⟨stream, wrote, closed⟩ := Script.write_empty small
  rw [same] at closed
  have written : (do
      let stream ← RLPStream.ofCount 4
      let stream ← stream.appendInt fields.nonce.toNat
      let stream ← stream.appendInt fields.balance.toNat
      let stream ← stream.append fields.storageRoot.val
      let stream ← stream.append fields.codeHash.val
      stream.result : Except RLPError Bytes) =
        script.write {} >>= RLPStream.result := by
    have finish : ∀ stream : RLPStream, (Except.ok stream :
        Except RLPError RLPStream) = pure stream := fun _ => rfl
    simp only [appendInt_toNat, RLPStream.ofCount, script, Script.write,
      Script.writeAll, List.length_cons, List.length_nil, finish,
      bind_assoc, pure_bind]
  have read : (script.write {} >>= RLPStream.result :
      Except RLPError Bytes) = .ok fields.encoding := by
    rw [wrote]
    exact closed
  rw [accountText, written, read]

theorem at_encoding (fields : AccountFields) {position : Nat}
    (inRange : position < 4) :
    RLP.at_ fields.encoding position =
      .ok (fields.items.get ⟨position, inRange⟩).encode :=
  @RLP.at_encode_list fields.items position inRange fields.readable

theorem accountFields_encoding (fields : AccountFields) :
    accountFields fields.encoding = .ok fields := by
  have constructed : RLP.construct fields.encoding .veryStrict =
      .ok fields.encoding :=
    RLP.construct_encode (show RLP.Readable (.list fields.items) from
      fields.readable)
  have limit : 32 < RLP.readLimit := by
    rw [RLP.readLimit_eq]
    omega
  have nonce : RLP.toInt .u256 (Item.encode
      (.data (RLPStream.intContent fields.nonce.toNat))) = _ :=
    toInt_storageEncoding fields.nonce
  have balance : RLP.toInt .u256 (Item.encode
      (.data (RLPStream.intContent fields.balance.toNat))) = _ :=
    toInt_storageEncoding fields.balance
  have root : RLP.toHash 32 (Item.encode
      (.data fields.storageRoot.val)) = _ :=
    RLP.toHash_encodeData_hash fields.storageRoot limit
  have codeHash : RLP.toHash 32 (Item.encode
      (.data fields.codeHash.val)) = _ :=
    RLP.toHash_encodeData_hash fields.codeHash limit
  simp [accountFields, constructed, at_encoding, items, nonce, balance, root,
    codeHash, bind, Except.bind, pure, Except.pure]

end AccountFields

end Aecmio
