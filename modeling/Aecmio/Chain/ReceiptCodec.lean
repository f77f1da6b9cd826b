import Aecmio.Chain.Receipt
import Aecmio.Rlp.Fields

/-!
# Receipts from storage

The receipts of a block are stored as one list of their encodings.  The first
field of a receipt is a root if it has 32 bytes and a status code otherwise.
-/

namespace Aecmio

open Item RLP RLPStream

inductive ReceiptError where
  | rlp (error : RLPError)
  | invalidTransactionReceiptFormat
  | assertion
deriving DecidableEq

namespace ReceiptError

/-- A field of a receipt, or the exception of its access. -/
def field {α : Type} (view : Bytes) (position : Nat)
    (read : Bytes → Except RLPError α) : Except ReceiptError α :=
  (RLP.at_ view position >>= read).mapError .rlp

end ReceiptError

open ReceiptError

/-- `toVector<h256>`, whose default is to make nothing of what is no list. -/
def topicsOf (view : Bytes) : Except RLPError (List H256) :=
  if isList view then do
    let _ ← itemCount view
    (← iterate view).mapM fun item => toHash 32 item .laissezFaire
  else return []

/-- `LogEntry(RLP const&)`. -/
def LogEntry.ofRlp (r : Bytes) : Except ReceiptError LogEntry := do
  if (← (itemCount r).mapError .rlp) ≠ 3 then throw .assertion
  return {
    address := ← field r 0 (toHash 20 ·)
    topics := ← field r 1 topicsOf
    data := ← field r 2 (toBytes ·) }

namespace TransactionReceipt

/-- The first field, told apart by its size. -/
def statusOrRoot (first : Bytes) : Except ReceiptError StatusOrRoot := do
  if !isData first then throw .invalidTransactionReceiptFormat
  if (← (size first).mapError .rlp) = 32 then
    return .stateRoot (← (toHash 32 first).mapError .rlp)
  if !(← (isInt first).mapError .rlp) then
    throw .invalidTransactionReceiptFormat
  return .statusCode (UInt8.ofNat (← (toInt .uint8 first).mapError .rlp))

/-- `TransactionReceipt(bytesConstRef)`. -/
def ofBytes (rlp : Bytes) : Except ReceiptError TransactionReceipt := do
  let r ← (construct rlp .veryStrict).mapError .rlp
  if !isList r then throw .invalidTransactionReceiptFormat
  if (← (itemCount r).mapError .rlp) ≠ 4 then
    throw .invalidTransactionReceiptFormat
  return {
    statusCodeOrStateRoot := ← statusOrRoot (← field r 0 pure)
    cumulativeGasUsed := BitVec.ofNat 256 (← field r 1 (toInt .u256 ·))
    bloom := ← field r 2 (toHash 256 ·)
    log := ← (← field r 3 iterate).mapM LogEntry.ofRlp }

end TransactionReceipt

structure BlockReceipts where
  receipts : List TransactionReceipt
deriving DecidableEq

namespace BlockReceipts

/-- `BlockReceipts(RLP const&)`. -/
def ofRlp (r : Bytes) : Except ReceiptError BlockReceipts := do
  return ⟨← (← (iterate r).mapError .rlp).mapM TransactionReceipt.ofBytes⟩

def rlp (blockReceipts : BlockReceipts) : Except RLPError Bytes := do
  let stream ← RLPStream.ofCount blockReceipts.receipts.length
  (← blockReceipts.receipts.foldlM
    (fun stream receipt => receipt.streamRLP stream) stream).result

/-- What the database returns: the receipts of the stored bytes. -/
def ofStored (stored : Bytes) : Except ReceiptError BlockReceipts := do
  ofRlp (← (construct stored .veryStrict).mapError .rlp)

/-- The root that a header commits to. -/
def receiptsRoot [Hashing] (blockReceipts : BlockReceipts) :
    Except RLPError H256 := do
  orderedTrieRoot (← blockReceipts.receipts.mapM TransactionReceipt.rlp)

/-- The root of the stored receipts, as `BlockChain::insert` checks it. -/
def storedRoot [Hashing] (stored : Bytes) : Except RLPError H256 := do
  orderedTrieRoot (← iterate (← construct stored .veryStrict))

end BlockReceipts

/-! ## Items -/

/-- The item of a log, with the strings and lists it is written by. -/
def LogEntry.script (entry : LogEntry) : Script :=
  .counted [.data entry.address.val,
    .counted (entry.topics.map fun topic => .data topic.val),
    .data entry.data]

def StatusOrRoot.content : StatusOrRoot → Bytes
  | .statusCode status => intContent status.toNat
  | .stateRoot root => root.val

def TransactionReceipt.script (receipt : TransactionReceipt) : Script :=
  .counted [.data receipt.statusCodeOrStateRoot.content,
    .data (intContent receipt.cumulativeGasUsed.toNat),
    .data receipt.bloom.val,
    .counted (receipt.log.map LogEntry.script)]

def BlockReceipts.script (blockReceipts : BlockReceipts) : Script :=
  .counted (blockReceipts.receipts.map TransactionReceipt.script)

theorem itemAll_map {α : Type} (script : α → Script) (values : List α) :
    Script.itemAll (values.map script) =
      values.map fun value => (script value).item := by
  induction values with
  | nil => rfl
  | cons value values induction =>
      rw [List.map_cons, List.map_cons, Script.itemAll, induction]

theorem writeAll_map {α : Type} (script : α → Script) (values : List α)
    (stream : RLPStream) :
    Script.writeAll (values.map script) stream =
      values.foldlM (fun stream value => (script value).write stream)
        stream := by
  induction values generalizing stream with
  | nil => rfl
  | cons value values induction =>
      rw [List.map_cons, Script.writeAll, List.foldlM_cons]
      cases (script value).write stream with
      | error error => rfl
      | ok stream => exact induction stream

/-! ## Writing -/

theorem appendInt_eq_append {value : Nat} (small : bytesRequired value ≤ 32)
    (stream : RLPStream) :
    stream.appendInt value = stream.append (intContent value) := by
  have length : (intContent value).length < sizeTRange := by
    rw [sizeTRange_eq, intContent, length_toBigEndian]
    omega
  rw [appendInt_eq stream (by omega), append_eq length]

theorem bind_except_ok {ε α : Type} (result : Except ε α) :
    (result >>= Except.ok) = result :=
  bind_pure result

theorem LogEntry.streamRLP_eq (entry : LogEntry) (stream : RLPStream) :
    entry.streamRLP stream = entry.script.write stream := by
  simp only [LogEntry.streamRLP, LogEntry.script, Script.write,
    Script.writeAll, List.length_map, List.length_cons, List.length_nil,
    writeAll_map, bind_assoc, bind_except_ok]

theorem TransactionReceipt.streamRLP_eq (receipt : TransactionReceipt)
    (stream : RLPStream) :
    receipt.streamRLP stream = receipt.script.write stream := by
  have gas : bytesRequired receipt.cumulativeGasUsed.toNat ≤ 32 := by
    rw [bytesRequired_le_iff]
    exact receipt.cumulativeGasUsed.isLt
  have status : ∀ status : UInt8, bytesRequired status.toNat ≤ 32 := by
    intro status
    rw [bytesRequired_le_iff]
    exact lt_of_lt_of_le status.toNat_lt (by decide)
  have logs : ∀ stream : RLPStream,
      receipt.log.foldlM (fun stream entry => entry.streamRLP stream) stream =
        receipt.log.foldlM (fun stream entry => entry.script.write stream)
          stream := by
    intro stream
    congr
    funext stream entry
    exact entry.streamRLP_eq stream
  simp only [TransactionReceipt.streamRLP, TransactionReceipt.script,
    Script.write, Script.writeAll, List.length_map, List.length_cons,
    List.length_nil, writeAll_map, appendInt_eq_append gas, logs,
    bind_except_ok]
  cases receipt.statusCodeOrStateRoot with
  | statusCode code =>
      simp only [StatusOrRoot.content, appendInt_eq_append (status code)]
  | stateRoot root => rfl

theorem TransactionReceipt.rlp_eq (receipt : TransactionReceipt)
    (small : receipt.script.item.encode.length < readLimit) :
    receipt.rlp = .ok receipt.script.item.encode := by
  have limit := readLimit_lt
  obtain ⟨stream, written, result⟩ :=
    @Script.write_empty receipt.script (by omega)
  rw [TransactionReceipt.rlp, receipt.streamRLP_eq, written]
  exact result

theorem BlockReceipts.rlp_eq (blockReceipts : BlockReceipts)
    (small : blockReceipts.script.item.encode.length < readLimit) :
    blockReceipts.rlp = .ok blockReceipts.script.item.encode := by
  have limit := readLimit_lt
  obtain ⟨stream, written, result⟩ :=
    @Script.write_empty blockReceipts.script (by omega)
  have streams : (fun (stream : RLPStream) (receipt : TransactionReceipt) =>
      receipt.streamRLP stream) =
        fun stream receipt => receipt.script.write stream := by
    funext stream receipt
    exact receipt.streamRLP_eq stream
  rw [BlockReceipts.script, Script.write, List.length_map] at written
  simp only [writeAll_map] at written
  rw [BlockReceipts.rlp, RLPStream.ofCount, streams, ← bind_assoc, written]
  exact result

/-! ## Reading -/

theorem toHash_written {size : Nat} (hash : FixedHash size)
    (flags : Strictness) (small : size < readLimit) :
    toHash size (encodeData hash.val) flags = .ok hash := by
  have length : hash.val.length = size := hash.property
  have limit : hash.val.length < readLimit := by omega
  have isData : isData (encodeData hash.val) = true := by
    simpa using isData_encodeData [] limit
  have taken : hash.val.take size = hash.val :=
    List.take_of_length_le (by omega)
  simp only [toHash, requireGood_encodeData limit, payload_encodeData limit,
    isData, bind, Except.bind, pure, Except.pure, length]
  simp [taken, length]

theorem mapM_written {ε α β γ : Type} {write : α → β} {result : α → γ}
    {read : β → Except ε γ} {values : List α}
    (each : ∀ value ∈ values, read (write value) = .ok (result value)) :
    (values.map write).mapM read = .ok (values.map result) := by
  induction values with
  | nil => rfl
  | cons value values induction =>
      have head := each value List.mem_cons_self
      have tail := induction fun other member =>
        each other (List.mem_cons_of_mem _ member)
      rw [List.map_cons, List.mapM_cons, head]
      simp only [bind, Except.bind, tail]
      rfl

theorem isList_item {items : List Item}
    (small : (encodeAll items).length < readLimit) :
    isList (Item.list items).encode = true := by
  simpa [encode] using isList_encodeList [] small

theorem small_of_mem {α : Type} {item : α → Item} {values : List α}
    (small : Readable (.list (values.map item))) {value : α}
    (member : value ∈ values) : (item value).encode.length < readLimit :=
  lt_of_le_of_lt
    (encode_length_le_encodeAll (List.mem_map_of_mem member)) small

theorem field_item {α : Type} {items : List Item} {position : Nat}
    {item : Item} {read : Bytes → Except RLPError α} {value : α}
    (small : (encodeAll items).length < readLimit)
    (found : items[position]? = some item)
    (accepted : read item.encode = .ok value) :
    field (Item.list items).encode position read = .ok value := by
  obtain ⟨inRange, same⟩ := List.getElem?_eq_some_iff.mp found
  rw [field, at_encode_list inRange small, same]
  simp only [bind, Except.bind, accepted]
  rfl

theorem topicsOf_written {topics : List H256}
    (small : (encodeAll (topics.map fun topic => .data topic.val)).length <
      readLimit) :
    topicsOf (Item.list (topics.map fun topic => .data topic.val)).encode =
      .ok topics := by
  have read : (topics.map fun topic => encodeData topic.val).mapM
      (fun item => toHash 32 item .laissezFaire) = .ok (topics.map id) :=
    mapM_written fun topic _ =>
      toHash_written topic _ (by rw [readLimit_eq]; decide)
  rw [List.map_id] at read
  rw [topicsOf, if_pos (isList_item small), RLP.itemCount_encode_list small,
    iterate_encode_list small, List.map_map]
  exact read

theorem LogEntry.item_eq (entry : LogEntry) :
    entry.script.item = .list [.data entry.address.val,
      .list (entry.topics.map fun topic => .data topic.val),
      .data entry.data] := by
  simp only [LogEntry.script, Script.item, Script.itemAll, itemAll_map]

theorem LogEntry.ofRlp_written (entry : LogEntry)
    (small : entry.script.item.encode.length < readLimit) :
    LogEntry.ofRlp entry.script.item.encode = .ok entry := by
  rw [entry.item_eq] at small ⊢
  have inner := readable_of_length small
  have topics := readable_of_mem
    (List.mem_cons_of_mem _ List.mem_cons_self) inner
  have data := readable_of_mem
    (List.mem_cons_of_mem _ (List.mem_cons_of_mem _ List.mem_cons_self)) inner
  have count := RLP.itemCount_encode_list inner
  have read0 : field (Item.list _).encode 0 (toHash 20 ·) =
      .ok entry.address :=
    field_item inner rfl
      (toHash_written entry.address _ (by rw [readLimit_eq]; decide))
  have read1 : field (Item.list _).encode 1 topicsOf = .ok entry.topics :=
    field_item inner rfl (topicsOf_written topics)
  have read2 : field (Item.list _).encode 2 (toBytes ·) = .ok entry.data :=
    field_item inner rfl (toBytes_encodeData .laissezFaire data)
  simp only [LogEntry.ofRlp, count, read0, read1, read2, Except.mapError,
    bind, Except.bind, pure, Except.pure]
  rfl

theorem head?_intContent (value : Nat) :
    (intContent value).head? ≠ some 0 := by
  by_cases zero : value = 0
  · rw [zero]
    simp [intContent, toBigEndian]
  · obtain ⟨first, rest, split, nonzero⟩ :=
      toBigEndian_bytesRequired_cons (show 0 < value by omega)
    simp [intContent, split, nonzero]

/-- A status code has at most one byte, a root has 32. -/
theorem statusOrRoot_written (value : StatusOrRoot) :
    TransactionReceipt.statusOrRoot (encodeData value.content) =
      .ok value := by
  have limit : 32 < readLimit := by
    rw [readLimit_eq]
    decide
  cases value with
  | statusCode status =>
      have short : (intContent status.toNat).length ≤ 1 := by
        rw [intContent, length_toBigEndian, bytesRequired_le_iff]
        exact status.toNat_lt
      have small : (intContent status.toNat).length < readLimit := by omega
      have isData : isData (encodeData (intContent status.toNat)) = true := by
        simpa using isData_encodeData [] small
      have size : RLP.size (encodeData (intContent status.toNat)) =
          .ok (intContent status.toNat).length := by
        rw [RLP.size, if_pos isData, length_encodeData small]
      have isInt := isInt_encodeData small (head?_intContent status.toNat)
      have read : toInt .uint8 (encodeData (intContent status.toNat)) =
          .ok status.toNat := toInt_intContent status.toNat_lt
      have notRoot : (intContent status.toNat).length ≠ 32 := by omega
      simp only [TransactionReceipt.statusOrRoot, StatusOrRoot.content,
        isData, size, isInt, read, Except.mapError, bind, Except.bind,
        Bool.not_true, Bool.false_eq_true, if_false, notRoot,
        UInt8.ofNat_toNat]
      rfl
  | stateRoot root =>
      have length : root.val.length = 32 := root.property
      have small : root.val.length < readLimit := by omega
      have isData : isData (encodeData root.val) = true := by
        simpa using isData_encodeData [] small
      have size : RLP.size (encodeData root.val) = .ok 32 := by
        rw [RLP.size, if_pos isData, length_encodeData small, length]
      have read := toHash_written root .strict limit
      simp only [TransactionReceipt.statusOrRoot, StatusOrRoot.content,
        isData, size, read, Except.mapError, bind, Except.bind,
        Bool.not_true, Bool.false_eq_true, if_false, if_true]
      rfl

namespace TransactionReceipt

/-- The items of the outer list. -/
def items (receipt : TransactionReceipt) : List Item :=
  [.data receipt.statusCodeOrStateRoot.content,
    .data (intContent receipt.cumulativeGasUsed.toNat),
    .data receipt.bloom.val,
    .list (receipt.log.map fun entry => entry.script.item)]

theorem item_eq (receipt : TransactionReceipt) :
    receipt.script.item = .list receipt.items := by
  simp only [script, items, Script.item, Script.itemAll, itemAll_map]

theorem ofBytes_written (receipt : TransactionReceipt)
    (small : receipt.script.item.encode.length < readLimit) :
    ofBytes receipt.script.item.encode = .ok receipt := by
  rw [receipt.item_eq] at small ⊢
  have readable := readable_of_length small
  have constructed := construct_encode readable
  have list := isList_item readable
  have count := RLP.itemCount_encode_list readable
  have four : receipt.items.length = 4 := rfl
  have logs := readable_of_mem (List.mem_cons_of_mem _ (List.mem_cons_of_mem _
    (List.mem_cons_of_mem _ List.mem_cons_self))) readable
  have read0 : field (Item.list receipt.items).encode 0 pure =
      .ok (encodeData receipt.statusCodeOrStateRoot.content) :=
    field_item readable rfl rfl
  have read1 : field (Item.list receipt.items).encode 1 (toInt .u256 ·) =
      .ok receipt.cumulativeGasUsed.toNat :=
    field_item readable rfl (toInt_word receipt.cumulativeGasUsed)
  have read2 : field (Item.list receipt.items).encode 2 (toHash 256 ·) =
      .ok receipt.bloom :=
    field_item readable rfl
      (toHash_written receipt.bloom _ (by rw [readLimit_eq]; decide))
  have read3 : field (Item.list receipt.items).encode 3 iterate = .ok
      (receipt.log.map fun entry => entry.script.item.encode) := by
    refine field_item readable rfl ((iterate_encode_list logs).trans ?_)
    rw [List.map_map]
    rfl
  have entries : (receipt.log.map fun entry =>
      entry.script.item.encode).mapM LogEntry.ofRlp =
        .ok (receipt.log.map id) :=
    mapM_written fun entry member =>
      entry.ofRlp_written (small_of_mem logs member)
  rw [List.map_id] at entries
  simp only [ofBytes, constructed, list, count, four, read0, read1, read2,
    read3, statusOrRoot_written, entries, Except.mapError, bind, Except.bind,
    BitVec.ofNat_toNat]
  rfl

end TransactionReceipt

namespace BlockReceipts

variable {blockReceipts : BlockReceipts}

theorem item_eq (blockReceipts : BlockReceipts) :
    blockReceipts.script.item = .list
      (blockReceipts.receipts.map fun receipt => receipt.script.item) := by
  simp only [script, Script.item, itemAll_map]

theorem visited (small : blockReceipts.script.item.encode.length < readLimit) :
    (do iterate (← construct blockReceipts.script.item.encode .veryStrict)) =
      .ok (blockReceipts.receipts.map fun receipt =>
        receipt.script.item.encode) := by
  rw [blockReceipts.item_eq] at small ⊢
  have readable := readable_of_length small
  have parts := iterate_encode_list readable
  rw [List.map_map] at parts
  rw [construct_encode readable]
  exact parts

theorem small_receipt
    (small : blockReceipts.script.item.encode.length < readLimit)
    {receipt : TransactionReceipt}
    (member : receipt ∈ blockReceipts.receipts) :
    receipt.script.item.encode.length < readLimit := by
  rw [blockReceipts.item_eq] at small
  exact small_of_mem (readable_of_length small) member

theorem ofStored_written
    (small : blockReceipts.script.item.encode.length < readLimit) :
    ofStored blockReceipts.script.item.encode = .ok blockReceipts := by
  have constructed : construct blockReceipts.script.item.encode .veryStrict =
      .ok blockReceipts.script.item.encode :=
    construct_encode (readable_of_length small)
  have parts := visited small
  rw [constructed] at parts
  have receipts : (blockReceipts.receipts.map fun receipt =>
      receipt.script.item.encode).mapM TransactionReceipt.ofBytes =
        .ok (blockReceipts.receipts.map id) :=
    mapM_written fun receipt member =>
      receipt.ofBytes_written (small_receipt small member)
  rw [List.map_id] at receipts
  simp only [bind, Except.bind] at parts
  simp only [ofStored, constructed, ofRlp, parts, receipts, Except.mapError,
    bind, Except.bind]
  rfl

theorem storedRoot_written [Hashing]
    (small : blockReceipts.script.item.encode.length < readLimit) :
    storedRoot blockReceipts.script.item.encode =
      blockReceipts.receiptsRoot := by
  have texts : (blockReceipts.receipts.map id).mapM TransactionReceipt.rlp =
      .ok (blockReceipts.receipts.map fun receipt =>
        receipt.script.item.encode) :=
    mapM_written fun receipt member =>
      receipt.rlp_eq (small_receipt small member)
  rw [List.map_id] at texts
  have parts := visited small
  rw [receiptsRoot, texts, storedRoot, ← bind_assoc, parts]

end BlockReceipts

/-- Receipts are read from the database as they were written to it, and have
the root they had. -/
theorem receipts_survive_storage [Hashing] :
    (∀ receipt : TransactionReceipt,
      receipt.script.item.encode.length < readLimit →
      ∃ text, receipt.rlp = .ok text ∧
        TransactionReceipt.ofBytes text = .ok receipt) ∧
    ∀ blockReceipts : BlockReceipts,
      blockReceipts.script.item.encode.length < readLimit →
      ∃ text, blockReceipts.rlp = .ok text ∧
        BlockReceipts.storedRoot text = blockReceipts.receiptsRoot ∧
        ∃ decoded, BlockReceipts.ofStored text = .ok decoded ∧
          decoded.rlp = .ok text ∧
          decoded.receiptsRoot = blockReceipts.receiptsRoot := by
  refine ⟨fun receipt small => ⟨_, receipt.rlp_eq small,
    receipt.ofBytes_written small⟩, fun blockReceipts small => ?_⟩
  have written := blockReceipts.rlp_eq small
  exact ⟨_, written, BlockReceipts.storedRoot_written small, blockReceipts,
    BlockReceipts.ofStored_written small, written, rfl⟩

/-- A receipt with the status code zero and one log. -/
def revertedReceipt : TransactionReceipt where
  statusCodeOrStateRoot := .statusCode 0
  cumulativeGasUsed := 21000
  bloom := zeroHash 256
  log := [⟨⟨List.replicate 20 7, rfl⟩, [zeroHash 32], [1, 2, 3]⟩]

theorem revertedReceipt_size :
    (BlockReceipts.mk [revertedReceipt]).script.item.encode.length = 332 := by
  decide +kernel

def receiptSampleHashing : Hashing where
  sha3 _ := zeroHash 32
  trieRoot _ := zeroHash 32

theorem receipts_survive_storage_sample :
    (∃ text, revertedReceipt.rlp = .ok text ∧
      TransactionReceipt.ofBytes text = .ok revertedReceipt) ∧
    ∃ text, (BlockReceipts.mk [revertedReceipt]).rlp = .ok text ∧
      ∃ decoded, BlockReceipts.ofStored text = .ok decoded ∧
        decoded.rlp = .ok text := by
  have small : (BlockReceipts.mk [revertedReceipt]).script.item.encode.length <
      readLimit := by
    rw [revertedReceipt_size, readLimit_eq]
    decide
  have survives := @receipts_survive_storage receiptSampleHashing
  refine ⟨survives.1 revertedReceipt
    (BlockReceipts.small_receipt small List.mem_cons_self), ?_⟩
  obtain ⟨text, written, -, decoded, read, again, -⟩ :=
    survives.2 ⟨[revertedReceipt]⟩ small
  exact ⟨text, written, decoded, read, again⟩

end Aecmio
