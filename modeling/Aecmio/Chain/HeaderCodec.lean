import Aecmio.Chain.BlockHeader
import Aecmio.Rlp.Fields

/-!
# Headers and their bytes

`streamRLP` writes the two `int64_t` fields of a header as `unsigned`, so it
writes the header that has them reduced modulo `2 ^ 32`.  `populate` reads the
fields one by one; only the extra data may be something else than what
`streamRLP` writes.
-/

namespace Aecmio

open Item RLP RLPStream

namespace BlockHeader

/-- `BlockHeader(_data, HeaderData)`. -/
def ofHeaderData [Hashing] (data : Bytes) : Except RLPError BlockHeader :=
  populate data (sha3 data)

/-- `hash(WithoutSeal)`, of a header whose own memo of it is empty. -/
def hashWithout [Hashing] (header : BlockHeader) : Except RLPError H256 := do
  let stream ← header.streamRLP .withoutSeal {}
  return sha3 (← stream.result)

/-! ## Writing -/

/-- The items of the thirteen fields. -/
def fieldParts (header : BlockHeader) : List Bytes :=
  [encodeData header.parentHash.val,
    encodeData header.sha3Uncles.val,
    encodeData header.author.val,
    encodeData header.stateRoot.val,
    encodeData header.transactionsRoot.val,
    encodeData header.receiptsRoot.val,
    encodeData header.logBloom.val,
    encodeData (RLPStream.intContent header.difficulty.toNat),
    encodeData (RLPStream.intContent header.number.toNat),
    encodeData (RLPStream.intContent header.gasLimit.toNat),
    encodeData (RLPStream.intContent header.gasUsed.toNat),
    encodeData (RLPStream.intContent header.timestamp.toNat),
    encodeData header.extraData]

/-- The header with its `int64_t` fields as `unsigned`. -/
def narrowed (header : BlockHeader) : BlockHeader :=
  { header with
    number := header.number % 2 ^ 32
    timestamp := header.timestamp % 2 ^ 32 }

/-- The list of the fields and some more items. -/
def listed (header : BlockHeader) (seals : List Bytes) : Bytes :=
  encodeList (header.fieldParts ++ seals).flatten

variable {header : BlockHeader}

theorem streamRLPFields_eq (small : header.extraData.length < sizeTRange)
    (stream : RLPStream) :
    header.streamRLPFields stream = header.narrowed.fieldParts.foldlM
      (fun stream part => stream.appendRaw part 1) stream := by
  have hash := fun (value : H256) => append_hash value (by decide)
  have address := fun (value : Address) => append_hash value (by decide)
  have bloom := fun (value : LogBloom) => append_hash value (by decide)
  have word := fun (value : U256) (stream : RLPStream) =>
    RLPStream.appendInt_eq stream (bytesRequired_word value)
  have extra := fun (stream : RLPStream) =>
    @RLPStream.append_eq header.extraData stream small
  simp only [streamRLPFields, hash, address, bloom, word, appendInt_unsigned,
    extra, fieldParts, narrowed, List.foldlM_cons, List.foldlM_nil]
  simp only [bind_pure]

theorem streamRLP_eq {includeSeal : IncludeSeal} {seals : List Bytes}
    (chosen : seals = if includeSeal = .withSeal then header.seals else [])
    (small : (header.narrowed.fieldParts ++ seals).flatten.length <
      sizeTRange) :
    header.streamRLP includeSeal {} =
      .ok ⟨header.narrowed.listed seals, []⟩ := by
  have extra : header.extraData.length < sizeTRange := by
    refine Nat.lt_of_le_of_lt ?_ small
    have member : encodeData header.extraData ∈
        header.narrowed.fieldParts ++ seals := by
      simp [fieldParts, narrowed]
    exact (length_le_encodeData _).trans
      (List.sublist_flatten_of_mem member).length_le
  have nonempty : header.narrowed.fieldParts ++ seals ≠ [] := by
    simp [fieldParts]
  have written := RLPStream.appendList_parts nonempty small {}
  have count : (header.narrowed.fieldParts ++ seals).length =
      13 + seals.length := by
    rw [List.length_append]
    rfl
  rw [count] at written
  simp only [List.foldlM_append] at written
  simp only [streamRLP, ← chosen, streamRLPFields_eq extra]
  rw [written]
  rfl

/-! ## Reading what was written -/

/-- The `int64_t` fields of a header that can be read. -/
structure Positive (header : BlockHeader) : Prop where
  number : 0 ≤ header.number ∧ header.number < 2 ^ 63
  timestamp : 0 ≤ header.timestamp ∧ header.timestamp < 2 ^ 63

theorem data_fieldParts (header : BlockHeader) :
    ∀ part ∈ header.fieldParts, ∃ content, part = encodeData content := by
  intro part member
  simp only [fieldParts, List.mem_cons, List.not_mem_nil, or_false] at member
  rcases member with rfl | rfl | rfl | rfl | rfl | rfl | rfl | rfl | rfl |
    rfl | rfl | rfl | rfl <;> exact ⟨_, rfl⟩

theorem part_listed {seals : List Bytes}
    (areParts : ∀ item ∈ seals, Part item)
    (small : (header.fieldParts ++ seals).flatten.length < readLimit) :
    ∀ part ∈ header.fieldParts ++ seals, Part part := by
  intro part member
  rcases List.mem_append.mp member with field | item
  · obtain ⟨content, rfl⟩ := header.data_fieldParts part field
    refine .data (Nat.lt_of_le_of_lt ?_ small)
    exact (length_le_encodeData content).trans
      (List.sublist_flatten_of_mem member).length_le
  · exact areParts part item

theorem toPositiveInt64_intContent {value : Int}
    (bounds : 0 ≤ value ∧ value < 2 ^ 63) :
    toPositiveInt64 (encodeData (RLPStream.intContent value.toNat)) =
      .ok value := by
  have read : RLP.toInt .uint64
      (encodeData (RLPStream.intContent value.toNat)) = .ok value.toNat := by
    apply toInt_intContent
    show value.toNat < 256 ^ 8
    omega
  have low : ¬2 ^ 63 ≤ value.toNat := by omega
  simp only [toPositiveInt64, read, bind, Except.bind, if_neg low, pure,
    Except.pure]
  rw [Int.toNat_of_nonneg bounds.1]

/-- The items of a list of fields are read back. -/
theorem populate_listed {seals : List Bytes} (positive : header.Positive)
    (areParts : ∀ item ∈ seals, Part item)
    (small : (header.fieldParts ++ seals).flatten.length < readLimit)
    (hashWith : H256) :
    populate (header.listed seals) hashWith =
      .ok { header with seals, memo := hashWith } := by
  have parts := part_listed areParts small
  have constructed : construct (header.listed seals) .veryStrict =
      .ok (header.listed seals) := (Part.list small).construct_veryStrict
  have counted : itemCount (header.listed seals) =
      .ok (header.fieldParts ++ seals).length := itemCount_parts parts small
  have length : (header.fieldParts ++ seals).length = 13 + seals.length := by
    rw [List.length_append]
    rfl
  have found : ∀ (position : Nat) (inRange : position < 13),
      at_ (header.listed seals) position =
        .ok (header.fieldParts.get ⟨position, inRange⟩) := by
    intro position inRange
    rw [listed, at_parts parts small (by omega),
      List.getElem_append_left inRange]
    rfl
  have others : (List.range' 13 ((13 + seals.length) - 13)).mapM
      (at_ (header.listed seals)) = .ok seals := by
    have dropped := mapM_at_parts parts small 13
    rw [length, List.drop_append_of_le_length
      (show 13 ≤ 13 from Nat.le_refl 13)] at dropped
    exact dropped
  have extra : toBytes (encodeData header.extraData) =
      .ok header.extraData := by
    refine toBytes_encodeData .laissezFaire (Nat.lt_of_le_of_lt ?_ small)
    have member : encodeData header.extraData ∈
        header.fieldParts ++ seals := by simp [fieldParts]
    exact (length_le_encodeData _).trans
      (List.sublist_flatten_of_mem member).length_le
  have hash := fun (value : H256) => toHash_hash value (by decide)
  have address := fun (value : Address) => toHash_hash value (by decide)
  have bloom := fun (value : LogBloom) => toHash_hash value (by decide)
  have number := toPositiveInt64_intContent positive.number
  have timestamp := toPositiveInt64_intContent positive.timestamp
  simp only [populate, constructed, bind, Except.bind, counted, length, others,
    found 0 (by decide), found 1 (by decide), found 2 (by decide),
    found 3 (by decide), found 4 (by decide), found 5 (by decide),
    found 6 (by decide), found 7 (by decide), found 8 (by decide),
    found 9 (by decide), found 10 (by decide), found 11 (by decide),
    found 12 (by decide)]
  simp only [fieldParts, List.get_eq_getElem, List.getElem_cons_succ,
    List.getElem_cons_zero, hash, address, bloom, toInt_word, number,
    timestamp, extra, BitVec.ofNat_toNat, BitVec.setWidth_eq, pure,
    Except.pure]

/-! ## What can be read -/

theorem toPositiveInt64_ok {view : Bytes} {value : Int}
    (shape : MaybePart view) (accepted : toPositiveInt64 view = .ok value) :
    view = encodeData (RLPStream.intContent value.toNat) ∧
      0 ≤ value ∧ value < 2 ^ 63 := by
  obtain ⟨natural, read, accepted⟩ := exists_of_bind_ok accepted
  obtain ⟨written, -⟩ := toInt_ok shape read
  by_cases big : 2 ^ 63 ≤ natural
  · rw [if_pos big] at accepted
    cases accepted
  · rw [if_neg big] at accepted
    cases accepted
    exact ⟨written, by omega, by omega⟩

/-- What a header was read from. -/
structure ReadFrom (header : BlockHeader) (view content : Bytes) : Prop where
  positive : header.Positive
  field : ∀ (position : Nat) (inRange : position < 12),
    nthPart position content =
      .ok (header.fieldParts.get ⟨position, by
        exact Nat.lt_succ_of_lt inRange⟩)
  extra : ∃ item, nthPart 12 content = .ok item ∧
    toBytes item = .ok header.extraData
  seals : ∃ count, itemCount view = .ok count ∧
    (List.range' 13 (count - 13)).mapM (at_ view) = .ok header.seals

theorem populate_ok {view : Bytes} {hashWith : H256}
    (accepted : populate view hashWith = .ok header) :
    header.memo = hashWith ∧ ∃ content, content.length < readLimit ∧
      (view = encodeData content ∨ view = encodeList content) ∧
      header.ReadFrom view content := by
  obtain ⟨constructed, viewed, accepted⟩ := exists_of_bind_ok accepted
  have same := (construct_veryStrict_ok viewed).1
  rw [same] at accepted viewed
  obtain ⟨item0, found0, accepted⟩ := exists_of_bind_ok accepted
  obtain ⟨parentHash, read0, accepted⟩ := exists_of_bind_ok accepted
  obtain ⟨item1, found1, accepted⟩ := exists_of_bind_ok accepted
  obtain ⟨sha3Uncles, read1, accepted⟩ := exists_of_bind_ok accepted
  obtain ⟨item2, found2, accepted⟩ := exists_of_bind_ok accepted
  obtain ⟨author, read2, accepted⟩ := exists_of_bind_ok accepted
  obtain ⟨item3, found3, accepted⟩ := exists_of_bind_ok accepted
  obtain ⟨stateRoot, read3, accepted⟩ := exists_of_bind_ok accepted
  obtain ⟨item4, found4, accepted⟩ := exists_of_bind_ok accepted
  obtain ⟨transactionsRoot, read4, accepted⟩ := exists_of_bind_ok accepted
  obtain ⟨item5, found5, accepted⟩ := exists_of_bind_ok accepted
  obtain ⟨receiptsRoot, read5, accepted⟩ := exists_of_bind_ok accepted
  obtain ⟨item6, found6, accepted⟩ := exists_of_bind_ok accepted
  obtain ⟨logBloom, read6, accepted⟩ := exists_of_bind_ok accepted
  obtain ⟨item7, found7, accepted⟩ := exists_of_bind_ok accepted
  obtain ⟨difficulty, read7, accepted⟩ := exists_of_bind_ok accepted
  obtain ⟨item8, found8, accepted⟩ := exists_of_bind_ok accepted
  obtain ⟨number, read8, accepted⟩ := exists_of_bind_ok accepted
  obtain ⟨item9, found9, accepted⟩ := exists_of_bind_ok accepted
  obtain ⟨gasLimit, read9, accepted⟩ := exists_of_bind_ok accepted
  obtain ⟨item10, found10, accepted⟩ := exists_of_bind_ok accepted
  obtain ⟨gasUsed, read10, accepted⟩ := exists_of_bind_ok accepted
  obtain ⟨item11, found11, accepted⟩ := exists_of_bind_ok accepted
  obtain ⟨timestamp, read11, accepted⟩ := exists_of_bind_ok accepted
  obtain ⟨item12, found12, accepted⟩ := exists_of_bind_ok accepted
  obtain ⟨extraData, read12, accepted⟩ := exists_of_bind_ok accepted
  obtain ⟨count, counted, accepted⟩ := exists_of_bind_ok accepted
  obtain ⟨seals, others, accepted⟩ := exists_of_bind_ok accepted
  have nonempty : view ≠ [] := by
    intro empty
    rw [empty] at found0
    cases found0
    cases read0
  obtain ⟨content, small, shape⟩ :=
    canonical_of_construct nonempty viewed
  have indexed : ∀ position < 13,
      at_ view position = nthPart position content := by
    intro position inRange
    have bound : position < sizeTRange - 1 := by
      rw [sizeTRange_eq]
      omega
    rcases shape with rfl | rfl
    · exact at_encodeData small bound
    · exact at_encodeList small bound
  rw [indexed 0 (by decide)] at found0
  rw [indexed 1 (by decide)] at found1
  rw [indexed 2 (by decide)] at found2
  rw [indexed 3 (by decide)] at found3
  rw [indexed 4 (by decide)] at found4
  rw [indexed 5 (by decide)] at found5
  rw [indexed 6 (by decide)] at found6
  rw [indexed 7 (by decide)] at found7
  rw [indexed 8 (by decide)] at found8
  rw [indexed 9 (by decide)] at found9
  rw [indexed 10 (by decide)] at found10
  rw [indexed 11 (by decide)] at found11
  rw [indexed 12 (by decide)] at found12
  cases accepted
  have written8 := toPositiveInt64_ok (nthPart_shape found8) read8
  have written11 := toPositiveInt64_ok (nthPart_shape found11) read11
  refine ⟨rfl, content, small, shape, ⟨written8.2, written11.2⟩, ?_,
    ⟨item12, found12, read12⟩, ⟨count, counted, others⟩⟩
  intro position inRange
  match position, inRange with
  | 0, _ => rw [found0, toHash_ok (nthPart_shape found0) read0]; rfl
  | 1, _ => rw [found1, toHash_ok (nthPart_shape found1) read1]; rfl
  | 2, _ => rw [found2, toHash_ok (nthPart_shape found2) read2]; rfl
  | 3, _ => rw [found3, toHash_ok (nthPart_shape found3) read3]; rfl
  | 4, _ => rw [found4, toHash_ok (nthPart_shape found4) read4]; rfl
  | 5, _ => rw [found5, toHash_ok (nthPart_shape found5) read5]; rfl
  | 6, _ => rw [found6, toHash_ok (nthPart_shape found6) read6]; rfl
  | 7, _ => rw [found7, toInt_word_ok (nthPart_shape found7) read7]; rfl
  | 8, _ => rw [found8, written8.1]; rfl
  | 9, _ => rw [found9, toInt_word_ok (nthPart_shape found9) read9]; rfl
  | 10, _ => rw [found10, toInt_word_ok (nthPart_shape found10) read10]; rfl
  | 11, _ => rw [found11, written11.1]; rfl

/-! ## Round trips -/

/-- The bytes of `streamRLP`. -/
def encoded (header : BlockHeader) (includeSeal : IncludeSeal) :
    Except RLPError Bytes := do
  let stream ← header.streamRLP includeSeal {}
  stream.result

/-- Numbers that are not negative, a seal of whole items, and bytes that fit
into a vector, which holds less than `2 ^ 63` of them. -/
structure WellFormed (header : BlockHeader) : Prop where
  positive : header.Positive
  seals : ∀ item ∈ header.seals, ∃ tree : Item, item = tree.encode
  size : (header.narrowed.listed header.seals).length < 2 ^ 63

/-- The fields other than the seal. -/
def unsealed (header : BlockHeader) : BlockHeader :=
  { header.noteDirty with seals := [] }

/-- Both numbers fit into an `unsigned`. -/
def Narrow (header : BlockHeader) : Prop :=
  header.number < 2 ^ 32 ∧ header.timestamp < 2 ^ 32

theorem narrowed_eq_iff (positive : header.Positive) :
    header.narrowed.noteDirty = header.noteDirty ↔ header.Narrow := by
  obtain ⟨⟨numberLow, -⟩, ⟨timestampLow, -⟩⟩ := positive
  constructor
  · intro same
    have number : header.number % 2 ^ 32 = header.number :=
      congrArg BlockHeader.number same
    have timestamp : header.timestamp % 2 ^ 32 = header.timestamp :=
      congrArg BlockHeader.timestamp same
    exact ⟨by omega, by omega⟩
  · intro narrow
    obtain ⟨number, timestamp⟩ := narrow
    have numberSame : header.number % 2 ^ 32 = header.number := by omega
    have timestampSame : header.timestamp % 2 ^ 32 = header.timestamp := by
      omega
    rw [narrowed, numberSame, timestampSame]

theorem positive_narrowed (header : BlockHeader) :
    header.narrowed.Positive := by
  constructor
  · show 0 ≤ header.number % 2 ^ 32 ∧ header.number % 2 ^ 32 < 2 ^ 63
    omega
  · show 0 ≤ header.timestamp % 2 ^ 32 ∧ header.timestamp % 2 ^ 32 < 2 ^ 63
    omega

namespace WellFormed

theorem small (wellFormed : header.WellFormed) :
    (header.narrowed.fieldParts ++ header.seals).flatten.length <
      readLimit := by
  have size := wellFormed.size
  rw [listed] at size
  have shorter := length_lt_encodeList
    (header.narrowed.fieldParts ++ header.seals).flatten
  rw [readLimit_eq]
  omega

theorem small_unsealed (wellFormed : header.WellFormed) :
    (header.narrowed.fieldParts ++ []).flatten.length < readLimit := by
  have whole := wellFormed.small
  rw [List.flatten_append, List.length_append] at whole
  rw [List.append_nil]
  omega

theorem areParts (wellFormed : header.WellFormed) :
    ∀ item ∈ header.seals, Part item := by
  intro item member
  obtain ⟨tree, rfl⟩ := wellFormed.seals item member
  apply part_encode
  apply readable_of_length
  refine Nat.lt_of_le_of_lt ?_ wellFormed.small
  exact (List.sublist_flatten_of_mem
    (List.mem_append_right _ member)).length_le

theorem encoded_withSeal (wellFormed : header.WellFormed) :
    header.encoded .withSeal =
      .ok (header.narrowed.listed header.seals) := by
  have small := wellFormed.small.trans readLimit_lt
  rw [encoded, streamRLP_eq (by rw [if_pos rfl]) (by omega)]
  rfl

theorem encoded_withoutSeal (wellFormed : header.WellFormed) :
    header.encoded .withoutSeal = .ok (header.narrowed.listed []) := by
  have small := wellFormed.small_unsealed.trans readLimit_lt
  rw [encoded, streamRLP_eq (by rw [if_neg nofun]) (by omega)]
  rfl

/-- What is read back is the narrowed header. -/
theorem populate (wellFormed : header.WellFormed) (hashWith : H256) :
    BlockHeader.populate (header.narrowed.listed header.seals) hashWith =
      .ok { header.narrowed with memo := hashWith } :=
  populate_listed header.positive_narrowed wellFormed.areParts
    wellFormed.small hashWith

/-- Headers with the same bytes are the same but for what `streamRLP` leaves
out. -/
theorem narrowed_eq {other : BlockHeader} (wellFormed : header.WellFormed)
    (wellFormedOther : other.WellFormed)
    (same : header.narrowed.listed header.seals =
      other.narrowed.listed other.seals) :
    header.narrowed.noteDirty = other.narrowed.noteDirty := by
  have read := wellFormed.populate (zeroHash 32)
  rw [same, wellFormedOther.populate (zeroHash 32)] at read
  exact (Except.ok.inj read).symm

theorem narrowed_unsealed_eq {other : BlockHeader}
    (wellFormed : header.WellFormed) (wellFormedOther : other.WellFormed)
    (same : header.narrowed.listed [] = other.narrowed.listed []) :
    header.narrowed.unsealed = other.narrowed.unsealed := by
  have none : ∀ item ∈ ([] : List Bytes), Part item :=
    fun _ member => absurd member List.not_mem_nil
  have read := populate_listed header.positive_narrowed none
    wellFormed.small_unsealed (zeroHash 32)
  rw [same, populate_listed other.positive_narrowed none
    wellFormedOther.small_unsealed (zeroHash 32)] at read
  exact (Except.ok.inj read).symm

end WellFormed

section Identity

variable [Hashing]

/-- A header is read back from the bytes it is written to. -/
def RoundTrips (header : BlockHeader) : Prop :=
  ∃ bytes decoded, header.encoded .withSeal = .ok bytes ∧
    ofHeaderData bytes = .ok decoded ∧ decoded.noteDirty = header.noteDirty

/-- Unless the hashes of what is written for them collide, two headers that
differ have different hashes. -/
structure ToldApart (header other : BlockHeader) : Prop where
  withSeal : ∃ bytes bytes', header.encoded .withSeal = .ok bytes ∧
    other.encoded .withSeal = .ok bytes' ∧
    ((sha3 bytes = sha3 bytes' → bytes = bytes') →
      header.noteDirty ≠ other.noteDirty →
        header.noteDirty.hash ≠ other.noteDirty.hash)
  withoutSeal : ∃ bytes bytes', header.encoded .withoutSeal = .ok bytes ∧
    other.encoded .withoutSeal = .ok bytes' ∧
    ((sha3 bytes = sha3 bytes' → bytes = bytes') →
      header.unsealed ≠ other.unsealed →
        header.hashWithout ≠ other.hashWithout)

theorem hash_noteDirty {bytes : Bytes}
    (written : header.encoded .withSeal = .ok bytes) :
    header.noteDirty.hash = .ok (sha3 bytes) := by
  have same : header.noteDirty.streamRLP .withSeal {} =
      header.streamRLP .withSeal {} := rfl
  obtain ⟨stream, streamed, result⟩ := exists_of_bind_ok written
  have empty : header.noteDirty.memo = zeroHash 32 := rfl
  rw [hash, if_pos empty, same, streamed]
  simp only [bind, Except.bind, result]
  rfl

theorem hashWithout_eq {bytes : Bytes}
    (written : header.encoded .withoutSeal = .ok bytes) :
    header.hashWithout = .ok (sha3 bytes) := by
  obtain ⟨stream, streamed, result⟩ := exists_of_bind_ok written
  rw [hashWithout, streamed]
  simp only [bind, Except.bind, result]
  rfl

theorem roundTrips_iff (wellFormed : header.WellFormed) :
    header.RoundTrips ↔ header.Narrow := by
  rw [← narrowed_eq_iff wellFormed.positive]
  constructor
  · intro roundTrips
    obtain ⟨bytes, decoded, written, read, same⟩ := roundTrips
    cases wellFormed.encoded_withSeal.symm.trans written
    cases (wellFormed.populate _).symm.trans read
    exact same
  · intro same
    exact ⟨_, _, wellFormed.encoded_withSeal, wellFormed.populate _, same⟩

theorem toldApart {other : BlockHeader} (wellFormed : header.WellFormed)
    (wellFormedOther : other.WellFormed) (narrow : header.Narrow)
    (narrowOther : other.Narrow) : header.ToldApart other := by
  have same := (narrowed_eq_iff wellFormed.positive).mpr narrow
  have sameOther := (narrowed_eq_iff wellFormedOther.positive).mpr narrowOther
  have written := wellFormed.encoded_withSeal
  have writtenOther := wellFormedOther.encoded_withSeal
  have unsealed := wellFormed.encoded_withoutSeal
  have unsealedOther := wellFormedOther.encoded_withoutSeal
  refine ⟨⟨_, _, written, writtenOther, ?_⟩,
    ⟨_, _, unsealed, unsealedOther, ?_⟩⟩
  · intro injective different equal
    rw [hash_noteDirty written, hash_noteDirty writtenOther] at equal
    have bytes := injective (Except.ok.inj equal)
    apply different
    rw [← same, ← sameOther]
    exact wellFormed.narrowed_eq wellFormedOther bytes
  · intro injective different equal
    rw [hashWithout_eq unsealed, hashWithout_eq unsealedOther] at equal
    have bytes := injective (Except.ok.inj equal)
    have narrowedSame := wellFormed.narrowed_unsealed_eq wellFormedOther bytes
    apply different
    have drop : ∀ first : BlockHeader,
        first.unsealed = { first.noteDirty with seals := [] } := fun _ => rfl
    rw [drop, drop, ← same, ← sameOther]
    exact narrowedSame

/-- A header keeps its fields and its identity through its bytes as long as
its numbers fit into an `unsigned`. -/
theorem header_identity_iff (wellFormed : header.WellFormed) :
    (header.RoundTrips ∧ ∀ other : BlockHeader, other.WellFormed →
      other.Narrow → header.ToldApart other) ↔ header.Narrow := by
  constructor
  · intro both
    exact (roundTrips_iff wellFormed).mp both.1
  · intro narrow
    refine ⟨(roundTrips_iff wellFormed).mpr narrow, ?_⟩
    intro other wellFormedOther narrowOther
    exact toldApart wellFormed wellFormedOther narrow narrowOther

end Identity

section Sample

/-- The hashes of the two encodings of the header below. -/
def headerSampleHashing : Hashing where
  sha3 bytes := if bytes.length = 454
    then hashOfNat
      0x13009a40891ca18a61324764210b072c329308ca84e13c647cdd131f8d49562d
    else hashOfNat
      0xaa87e4288ac09b475505a7bff6a05892f01a26256fff9235f47407260c1f70f7
  trieRoot _ := zeroHash 32

def headerSample : BlockHeader where
  number := 5
  timestamp := 7
  seals := [[0x80]]

/-- A number of 33 bits. -/
def wideSample : BlockHeader := { headerSample with number := 2 ^ 32 + 5 }

theorem sample_seals : ∀ item ∈ [[(0x80 : UInt8)]],
    ∃ tree : Item, item = tree.encode := by
  intro item member
  refine ⟨.data [], ?_⟩
  rw [List.mem_singleton.mp member]
  rfl

theorem headerSample_wellFormed : headerSample.WellFormed :=
  ⟨⟨by decide, by decide⟩, sample_seals, by decide +kernel⟩

theorem wideSample_wellFormed : wideSample.WellFormed :=
  ⟨⟨by decide, by decide⟩, sample_seals, by decide +kernel⟩

attribute [local instance] headerSampleHashing

theorem header_identity_iff_sample :
    (headerSample.RoundTrips ∧ ∀ other : BlockHeader, other.WellFormed →
      other.Narrow → headerSample.ToldApart other) ↔ headerSample.Narrow :=
  header_identity_iff headerSample_wellFormed

/-- The number of a header is cut off. -/
theorem wide_number_lost :
    ¬∀ header : BlockHeader, header.WellFormed → header.RoundTrips ∧
      ∀ other : BlockHeader, other.WellFormed → header.ToldApart other := by
  intro all
  have roundTrips := (all wideSample wideSample_wellFormed).1
  have narrow := (roundTrips_iff wideSample_wellFormed).mp roundTrips
  exact absurd narrow.1 (by decide)

end Sample

/-! ## Canonical decoding -/

namespace ReadFrom

variable {view content : Bytes}

theorem areParts (readFrom : header.ReadFrom view content) :
    ∀ field ∈ header.fieldParts.take 12, Part field := by
  intro field member
  obtain ⟨position, inRange, rfl⟩ := List.mem_iff_getElem.mp member
  have inside : position < 12 := by
    simpa [fieldParts] using inRange
  have found := readFrom.field position inside
  rcases nthPart_shape found with empty | isPart
  · obtain ⟨text, isData⟩ := header.data_fieldParts _
      (List.mem_of_mem_take member)
    have here : (header.fieldParts.take 12)[position] =
        header.fieldParts.get ⟨position, Nat.lt_succ_of_lt inside⟩ :=
      List.getElem_take ..
    have nothing : encodeData text = [] := isData.symm.trans (here.trans empty)
    exact absurd nothing (List.ne_nil_of_length_pos (encodeData_pos text))
  · rw [List.getElem_take]
    exact isPart

/-- The payload is what is written for the first twelve fields, then the extra
data. -/
theorem split (readFrom : header.ReadFrom view content) :
    ∃ item rest, content = (header.fieldParts.take 12).flatten ++ rest ∧
      nthPart 12 content = .ok item ∧ nthPart 0 rest = .ok item ∧
      toBytes item = .ok header.extraData := by
  obtain ⟨item, found, extra⟩ := readFrom.extra
  obtain ⟨rest, split, further⟩ := nthPart_split readFrom.areParts
    (fun position inRange => by
      have inside : position < 12 := by simpa [fieldParts] using inRange
      rw [readFrom.field position inside, List.getElem_take]
      rfl)
  refine ⟨item, rest, split, found, ?_, extra⟩
  rw [← further 0, ← found]
  rfl

end ReadFrom

theorem fieldParts_eq (header : BlockHeader) :
    header.fieldParts =
      header.fieldParts.take 12 ++ [encodeData header.extraData] := rfl

theorem encodeData_nil : encodeData [] = [0x80] := rfl

/-- The extra data is written to no more bytes than it was read from, but for
the one byte of missing data. -/
theorem extra_length {item rest : Bytes} {extraData : Bytes}
    (found : nthPart 0 rest = .ok item)
    (read : toBytes item = .ok extraData) :
    (encodeData extraData).length ≤ rest.length + 1 := by
  by_cases data : isData item = true
  · have written := toBytes_ok (nthPart_shape found) read data
    obtain ⟨size, sized, taken⟩ := exists_of_bind_ok found
    rw [← written, ← Except.ok.inj taken, List.length_take]
    omega
  · rw [toBytes_not_data (by simpa using data)] at read
    rw [← Except.ok.inj read, encodeData_nil, List.length_singleton]
    omega

theorem narrowed_of_narrow (positive : header.Positive)
    (narrow : header.Narrow) : header.narrowed = header := by
  obtain ⟨number, timestamp⟩ := narrow
  obtain ⟨⟨numberLow, -⟩, ⟨timestampLow, -⟩⟩ := positive
  have numberSame : header.number % 2 ^ 32 = header.number := by omega
  have timestampSame : header.timestamp % 2 ^ 32 = header.timestamp := by
    omega
  rw [narrowed, numberSame, timestampSame]

theorem encoded_eq (positive : header.Positive) (narrow : header.Narrow)
    (small : (header.fieldParts ++ header.seals).flatten.length <
      sizeTRange) :
    header.encoded .withSeal = .ok (header.listed header.seals) := by
  have same := narrowed_of_narrow positive narrow
  have written := @streamRLP_eq header .withSeal header.seals
    (by rw [if_pos rfl]) (by rw [same]; exact small)
  rw [encoded, written, same]
  rfl

/-- A header read from a string is written as a list. -/
theorem encoded_of_data {content : Bytes} (small : content.length < readLimit)
    (narrow : header.Narrow)
    (readFrom : header.ReadFrom (encodeData content) content) :
    header.encoded .withSeal ≠ .ok (encodeData content) := by
  intro written
  obtain ⟨count, counted, others⟩ := readFrom.seals
  have notList : isList (encodeData content) = false := by
    simpa using isList_encodeData [] small
  have none : header.seals = [] := by
    rw [itemCount, if_neg (by simp [notList])] at counted
    rw [← Except.ok.inj counted] at others
    exact (Except.ok.inj others).symm
  obtain ⟨item, rest, split, -, found, extra⟩ := readFrom.split
  have extraLength := extra_length found extra
  have limit := readLimit_lt
  have size : (header.fieldParts ++ header.seals).flatten.length <
      sizeTRange := by
    rw [none, List.append_nil, fieldParts_eq, List.flatten_append,
      List.length_append, List.flatten_singleton]
    have total := congrArg List.length split
    rw [List.length_append] at total
    omega
  rw [encoded_eq readFrom.positive narrow size] at written
  have bytes := Except.ok.inj written
  have list : isList (encodeData content) = true := by
    rw [← bytes]
    exact isList_of_size size
  rw [notList] at list
  cases list

/-- A header read from a list is written to this list when its extra data is a
string. -/
theorem encoded_of_list {content : Bytes} (small : content.length < readLimit)
    (narrow : header.Narrow)
    (readFrom : header.ReadFrom (encodeList content) content) :
    header.encoded .withSeal = .ok (encodeList content) ↔
      ∃ item, nthPart 12 content = .ok item ∧ isData item := by
  obtain ⟨count, counted, others⟩ := readFrom.seals
  obtain ⟨parts, areParts, rfl, length⟩ := itemCount_ok small counted
  rw [← length, mapM_at_parts areParts small 13] at others
  have seals : header.seals = parts.drop 13 := (Except.ok.inj others).symm
  obtain ⟨item, found, extra⟩ := readFrom.extra
  have limit := readLimit_lt
  have twelve : 12 ≤ parts.length := by
    by_contra few
    have last := readFrom.field 11 (by decide)
    have beyond := nthPart_beyond areParts (show parts.length ≤ 11 by omega)
    rw [last] at beyond
    exact absurd (Except.ok.inj beyond)
      (List.ne_nil_of_length_pos (encodeData_pos _))
  have front : parts.take 12 = header.fieldParts.take 12 := by
    apply List.ext_getElem
    · simp [fieldParts, twelve]
    · intro position left right
      have inside : position < 12 := by simpa [twelve] using left
      have here := nthPart_parts areParts []
        (show position < parts.length by omega)
      rw [List.append_nil, readFrom.field position inside] at here
      rw [List.getElem_take, List.getElem_take]
      exact (Except.ok.inj here).symm
  by_cases thirteen : parts.length = 12
  · -- the extra data is missing
    have missing := nthPart_beyond areParts (show parts.length ≤ 12 by omega)
    have empty : header.extraData = [] := by
      rw [found] at missing
      rw [Except.ok.inj missing] at extra
      exact (Except.ok.inj extra).symm
    have whole : parts = header.fieldParts.take 12 := by
      rw [← front, List.take_of_length_le (by omega)]
    have none : header.seals = [] := by
      rw [seals, List.drop_eq_nil_of_le (by omega)]
    have output : (header.fieldParts ++ header.seals).flatten =
        parts.flatten ++ [0x80] := by
      rw [none, List.append_nil, fieldParts_eq, ← whole, empty,
        encodeData_nil, List.flatten_append, List.flatten_singleton]
    have size : (header.fieldParts ++ header.seals).flatten.length <
        sizeTRange := by
      rw [output, List.length_append, List.length_singleton]
      omega
    rw [encoded_eq readFrom.positive narrow size, listed, output]
    constructor
    · intro same
      have lists := encodeList_injective (Except.ok.inj same)
      have lengths := congrArg List.length lists
      rw [List.length_append, List.length_singleton] at lengths
      omega
    · rintro ⟨other, foundOther, isData⟩
      rw [missing] at foundOther
      cases foundOther
      cases isData
  · have inRange : 12 < parts.length := by omega
    have here := nthPart_parts areParts [] inRange
    rw [List.append_nil, found] at here
    have itemEq := Except.ok.inj here
    have whole : parts = header.fieldParts.take 12 ++ item ::
        header.seals := by
      rw [seals, itemEq, ← front, List.getElem_cons_drop inRange,
        List.take_append_drop]
    have output : header.fieldParts ++ header.seals =
        header.fieldParts.take 12 ++ encodeData header.extraData ::
          header.seals := by
      conv_lhs => rw [fieldParts_eq]
      rw [List.append_assoc]
      rfl
    have isPart : Part item := by
      rw [itemEq]
      exact areParts _ (List.getElem_mem _)
    have itemLength : (encodeData header.extraData).length ≤
        item.length := by
      by_cases isData : isData item = true
      · rw [← toBytes_ok (.inr isPart) extra isData]
      · rw [toBytes_not_data (by simpa using isData)] at extra
        rw [← Except.ok.inj extra, encodeData_nil]
        exact isPart.length_pos
    have size : (header.fieldParts ++ header.seals).flatten.length <
        sizeTRange := by
      have total := congrArg (fun list => list.flatten.length) whole
      simp only [List.flatten_append, List.length_append,
        List.flatten_cons] at total
      rw [output]
      simp only [List.flatten_append, List.length_append, List.flatten_cons]
      omega
    rw [encoded_eq readFrom.positive narrow size, listed]
    constructor
    · intro same
      have lists := encodeList_injective (Except.ok.inj same)
      rw [output, whole] at lists
      simp only [List.flatten_append, List.flatten_cons] at lists
      have itself : encodeData header.extraData = item :=
        List.append_cancel_right (List.append_cancel_left lists)
      refine ⟨item, found, ?_⟩
      have bound : header.extraData.length < readLimit := by
        have inside := (List.sublist_flatten_of_mem
          (List.getElem_mem inRange)).length_le
        rw [← itemEq, ← itself] at inside
        have shorter := length_le_encodeData header.extraData
        omega
      rw [← itself]
      simpa using isData_encodeData [] bound
    · rintro ⟨other, foundOther, isData⟩
      rw [found] at foundOther
      cases foundOther
      rw [output, ← toBytes_ok (.inr isPart) extra isData, ← whole]


section Decoding

variable [Hashing] {data : Bytes}

/-- What was read as a header is written again, and its hash is that of the
bytes, when it is a list and its extra data is a string. -/
theorem decode_canonical_iff (accepted : ofHeaderData data = .ok header)
    (narrow : header.Narrow) :
    (header.encoded .withSeal = .ok data ∧
      header.noteDirty.hash = .ok header.memo) ↔
      RLP.isList data ∧ ∃ item, RLP.at_ data 12 = .ok item ∧
        RLP.isData item := by
  obtain ⟨memo, content, small, shape, readFrom⟩ := populate_ok accepted
  have hashed : header.encoded .withSeal = .ok data →
      header.noteDirty.hash = .ok header.memo := by
    intro written
    rw [hash_noteDirty written, memo]
  have inRange : 12 < sizeTRange - 1 := by
    rw [sizeTRange_eq]
    decide
  rcases shape with rfl | rfl
  · have notList : isList (encodeData content) = false := by
      simpa using isList_encodeData [] small
    constructor
    · intro both
      exact absurd both.1 (encoded_of_data small narrow readFrom)
    · intro both
      rw [notList] at both
      cases both.1
  · have list : isList (encodeList content) = true := by
      simpa using isList_encodeList [] small
    have same := encoded_of_list small narrow readFrom
    rw [at_encodeList small inRange]
    constructor
    · intro both
      exact ⟨list, same.mp both.1⟩
    · intro both
      have written := same.mpr both.2
      exact ⟨written, hashed written⟩

end Decoding

section Sample

attribute [local instance] headerSampleHashing

/-- The bytes of the header above. -/
def headerSampleBytes : Bytes := headerSample.listed headerSample.seals

/-- The header above, read from its bytes. -/
def decodedSample : BlockHeader :=
  { headerSample with memo := sha3 headerSampleBytes }

theorem decoded_sample :
    ofHeaderData headerSampleBytes = .ok decodedSample := by
  decide +kernel

theorem decode_canonical_iff_sample :
    (decodedSample.encoded .withSeal = .ok headerSampleBytes ∧
      decodedSample.noteDirty.hash = .ok decodedSample.memo) ↔
      RLP.isList headerSampleBytes ∧
        ∃ item, RLP.at_ headerSampleBytes 12 = .ok item ∧ RLP.isData item :=
  decode_canonical_iff decoded_sample ⟨by decide, by decide⟩

/-- The bytes of a header whose extra data is the empty list. -/
def lenientSample : Bytes :=
  encodeList ((headerSample.fieldParts.take 12).flatten ++ [0xc0])

/-- The empty list is read as no extra data, which is written as the empty
string. -/
theorem lenient_extra_data :
    ¬∀ (data : Bytes) (header : BlockHeader),
      ofHeaderData data = .ok header → header.Narrow →
        header.encoded .withSeal = .ok data ∧
          header.noteDirty.hash = .ok header.memo := by
  intro all
  have accepted : ofHeaderData lenientSample = .ok { headerSample with
      seals := [], memo := sha3 lenientSample } := by
    decide +kernel
  have written := (all _ _ accepted ⟨by decide, by decide⟩).1
  revert written
  decide +kernel

end Sample

end BlockHeader

end Aecmio
