import Aecmio.Chain.TransactionBase

/-!
# What is read as a transaction

Every item of a transaction is read strictly but the receiver of a contract
creation, for which the empty list passes as well as the empty string.  So
`rlp()` gives back the bytes a transaction was read from unless its receiver
was written as a list.
-/

namespace Aecmio

open Item RLP RLPStream

namespace TransactionBase

variable {transaction : TransactionBase} {signature : SignatureStruct}

/-! ## Writing -/

/-- The number that is written in front of `r` and `s`. -/
def vItem (transaction : TransactionBase) (signature : SignatureStruct) :
    Int :=
  if transaction.hasZeroSignature then transaction.chainId
  else signature.v.toNat + (transaction.chainId * 2 + 35)

/-- The nine items of a signed transaction. -/
def fieldParts (transaction : TransactionBase)
    (signature : SignatureStruct) : List Bytes :=
  [encodeData (RLPStream.intContent transaction.nonce.toNat),
    encodeData (RLPStream.intContent transaction.gasPrice.toNat),
    encodeData (RLPStream.intContent transaction.gas.toNat),
    encodeData (if transaction.type = .messageCall
      then transaction.receiveAddress.val else []),
    encodeData (RLPStream.intContent transaction.value.toNat),
    encodeData transaction.data,
    encodeData (RLPStream.intContent
      (transaction.vItem signature % 2 ^ 32).toNat),
    encodeData (RLPStream.intContent signature.r.toNat),
    encodeData (RLPStream.intContent signature.s.toNat)]

def listed (transaction : TransactionBase) (signature : SignatureStruct) :
    Bytes :=
  encodeList (transaction.fieldParts signature).flatten

theorem rlp_eq (real : transaction.type ≠ .nullTransaction)
    (signed : transaction.vrs = some signature)
    (small : (transaction.fieldParts signature).flatten.length <
      sizeTRange) :
    transaction.rlp .withSignature = .ok (transaction.listed signature) := by
  have data : transaction.data.length < sizeTRange := by
    refine Nat.lt_of_le_of_lt ?_ small
    have member : encodeData transaction.data ∈
        transaction.fieldParts signature := by simp [fieldParts]
    exact (length_le_encodeData _).trans
      (List.sublist_flatten_of_mem member).length_le
  have receiver : (if transaction.type = .messageCall
      then transaction.receiveAddress.val else []).length < sizeTRange := by
    rw [sizeTRange_eq]
    split
    · rw [transaction.receiveAddress.property]
      decide
    · decide
  have written := RLPStream.appendList_parts
    (show transaction.fieldParts signature ≠ [] by simp [fieldParts]) small {}
  have closed : ({} : RLPStream).appendRaw
      (encodeList (transaction.fieldParts signature).flatten) 1 =
        .ok ⟨transaction.listed signature, []⟩ := rfl
  rw [closed] at written
  obtain ⟨stream0, step0, written⟩ := exists_of_bind_ok written
  simp only [fieldParts, List.foldlM_cons, List.foldlM_nil] at written
  obtain ⟨stream1, step1, written⟩ := exists_of_bind_ok written
  obtain ⟨stream2, step2, written⟩ := exists_of_bind_ok written
  obtain ⟨stream3, step3, written⟩ := exists_of_bind_ok written
  obtain ⟨stream4, step4, written⟩ := exists_of_bind_ok written
  obtain ⟨stream5, step5, written⟩ := exists_of_bind_ok written
  obtain ⟨stream6, step6, written⟩ := exists_of_bind_ok written
  obtain ⟨stream7, step7, written⟩ := exists_of_bind_ok written
  obtain ⟨stream8, step8, written⟩ := exists_of_bind_ok written
  obtain ⟨stream9, step9, written⟩ := exists_of_bind_ok written
  cases written
  have word := fun (value : U256) (stream : RLPStream) =>
    RLPStream.appendInt_eq stream (bytesRequired_word value)
  rw [← word] at step1 step2 step3 step5 step8 step9
  rw [← RLPStream.append_eq receiver] at step4
  rw [← RLPStream.append_eq data] at step6
  rw [← appendInt_unsigned, vItem] at step7
  have count : (transaction.fieldParts signature).length = 3 + 6 := rfl
  rw [count] at step0
  simp only [rlp, streamRLP, if_neg real, signed, true_or, if_true, step0,
    step1, step2, step3, step4, step5, step6, step7, step8, step9,
    Except.mapError, bind, Except.bind]
  rfl

/-! ## The folded signature -/

theorem intOfNat_mod {number : Nat} (small : number < 2 ^ 32) :
    (intOfNat number % 2 ^ 32).toNat = number := by
  unfold intOfNat
  split <;> omega

/-- What was taken apart is put together again. -/
theorem unfold_ok {checkSig : CheckTransaction} {number : Nat}
    {r s : U256} {chainId : Int} (small : number < 2 ^ 32)
    (unfolded : unfold checkSig (intOfNat number) r s =
      .ok (chainId, signature)) :
    signature.r = r ∧ signature.s = s ∧
      ((if isZeroSignature signature.r signature.s then chainId
        else signature.v.toNat + (chainId * 2 + 35)) % 2 ^ 32).toNat =
          number := by
  have whole := intOfNat_mod small
  generalize intOfNat number = v at unfolded whole
  by_cases zero : isZeroSignature r s = true
  · simp only [unfold, zero, if_true] at unfolded
    cases unfolded
    refine ⟨rfl, rfl, ?_⟩
    rw [if_pos zero, whole]
  · simp only [unfold, zero, if_false, Bool.false_eq_true] at unfolded
    obtain ⟨chain, chosen, unfolded⟩ := exists_of_bind_ok unfolded
    obtain ⟨_, -, unfolded⟩ := exists_of_bind_ok unfolded
    have byte : 0 ≤ v - (chain * 2 + 35) ∧ v - (chain * 2 + 35) < 2 := by
      unfold chainIdOf at chosen
      split at chosen
      · cases chosen
        omega
      · split at chosen
        · cases chosen
          omega
        · cases chosen
    cases unfolded
    refine ⟨rfl, rfl, ?_⟩
    have toNat : (UInt8.ofNat ((v - (chainId * 2 + 35)) % 256).toNat).toNat =
        (v - (chainId * 2 + 35)).toNat := by
      rw [UInt8.toNat_ofNat']
      omega
    rw [if_neg zero, toNat, ← whole]
    congr 2
    omega

/-! ## Reading -/

/-- What is known of a transaction that was read. -/
structure ReadAs [Hashing] [Recovering] (checkSig : CheckTransaction)
    (transaction : TransactionBase) (signature : SignatureStruct) :
    Prop where
  type : transaction.type = .messageCall ∨
    transaction.type = .contractCreation ∧
      transaction.receiveAddress = zeroAddress
  signed : transaction.vrs = some signature
  folded : unfold checkSig
    (intOfNat (transaction.vItem signature % 2 ^ 32).toNat) signature.r
      signature.s = .ok (transaction.chainId, signature)
  sender : senderOf checkSig { transaction with sender := zeroAddress } =
    .ok transaction.sender

/-- A transaction and the items it was read from. -/
structure ReadFrom [Hashing] [Recovering] (checkSig : CheckTransaction)
    (transaction : TransactionBase) (signature : SignatureStruct)
    (parts : List Bytes) : Prop where
  readAs : ReadAs checkSig transaction signature
  areParts : ∀ part ∈ parts, Part part
  small : parts.flatten.length < readLimit
  before : parts.take 3 = (transaction.fieldParts signature).take 3
  receiver : parts[3]? = (transaction.fieldParts signature)[3]? ∨
    parts[3]? = some [0xc0] ∧ transaction.type = .contractCreation
  after : parts.drop 4 = (transaction.fieldParts signature).drop 4

theorem field_ok {α : Type} {rlp : Bytes} {position : Nat}
    {read : Bytes → Except RLPError α} {value : α}
    (accepted : field rlp position read = .ok value) :
    ∃ item, at_ rlp position = .ok item ∧ read item = .ok value :=
  exists_of_bind_ok (mapError_ok accepted)

theorem toInt32_ok {view : Bytes} {value : Int} (shape : MaybePart view)
    (accepted : toInt32 view = .ok value) :
    ∃ number < 2 ^ 32, value = intOfNat number ∧
      view = encodeData (intContent number) := by
  obtain ⟨number, read, accepted⟩ := exists_of_bind_ok accepted
  obtain ⟨written, bound⟩ := toInt_ok shape read
  exact ⟨number, bound, (Except.ok.inj accepted).symm, written⟩

/-- An empty item is the empty string or the empty list. -/
theorem isEmpty_ok {view : Bytes} (shape : MaybePart view)
    (empty : isEmpty view = true) : view = [0x80] ∨ view = [0xc0] := by
  rcases shape with rfl | ⟨small⟩ | ⟨small⟩
  · cases empty
  · next content =>
      have none := isEmpty_encodeData [] small
      rw [List.append_nil, empty] at none
      rw [List.isEmpty_iff.mp none.symm]
      exact .inl rfl
  · next content =>
      have none := isEmpty_encodeList [] small
      rw [List.append_nil, empty] at none
      rw [List.isEmpty_iff.mp none.symm]
      exact .inr rfl

theorem require_ok {holds : Bool} {error : TransactionError} {done : Unit}
    (passed : require holds error = .ok done) : holds = true := by
  cases holds with
  | true => rfl
  | false => cases passed

theorem data_fieldParts (transaction : TransactionBase)
    (signature : SignatureStruct) :
    ∀ part ∈ transaction.fieldParts signature,
      ∃ content, part = encodeData content := by
  intro part member
  simp only [fieldParts, List.mem_cons, List.not_mem_nil, or_false] at member
  rcases member with rfl | rfl | rfl | rfl | rfl | rfl | rfl | rfl | rfl <;>
    exact ⟨_, rfl⟩

theorem part_fieldParts
    (small : (transaction.fieldParts signature).flatten.length < readLimit) :
    ∀ part ∈ transaction.fieldParts signature, Part part := by
  intro part member
  obtain ⟨content, rfl⟩ := data_fieldParts transaction signature part member
  refine .data (Nat.lt_of_le_of_lt ?_ small)
  exact (length_le_encodeData content).trans
    (List.sublist_flatten_of_mem member).length_le

theorem field_eq {α : Type} {view item : Bytes} {position : Nat}
    {read : Bytes → Except RLPError α} {value : α}
    (found : at_ view position = .ok item) (readItem : read item = .ok value) :
    field view position read = .ok value := by
  rw [field, found]
  show (read item).mapError _ = _
  rw [readItem]
  rfl

theorem toInt32_intContent {number : Nat} (small : number < 2 ^ 32) :
    toInt32 (encodeData (intContent number)) = .ok (intOfNat number) := by
  have read : RLP.toInt .uint32 (encodeData (intContent number)) =
      .ok number := toInt_intContent small
  rw [toInt32, read]
  rfl

section Reading

variable [Hashing] [Recovering] {checkSig : CheckTransaction}

/-- The items of a transaction that was read. -/
theorem ofRlp_ok {rlpData : Bytes}
    (accepted : ofRlp rlpData checkSig = .ok transaction) :
    ∃ signature parts, rlpData = encodeList (List.flatten parts) ∧
      ReadFrom checkSig transaction signature parts := by
  obtain ⟨view, viewed, accepted⟩ := exists_of_bind_ok accepted
  have constructed := mapError_ok viewed
  have same := (construct_veryStrict_ok constructed).1
  rw [same] at accepted constructed
  obtain ⟨_, list, accepted⟩ := exists_of_bind_ok accepted
  have isList := require_ok list
  obtain ⟨nonce, read0, accepted⟩ := exists_of_bind_ok accepted
  obtain ⟨gasPrice, read1, accepted⟩ := exists_of_bind_ok accepted
  obtain ⟨gas, read2, accepted⟩ := exists_of_bind_ok accepted
  obtain ⟨isCreation, read3, accepted⟩ := exists_of_bind_ok accepted
  obtain ⟨receiveAddress, read3', accepted⟩ := exists_of_bind_ok accepted
  obtain ⟨value, read4, accepted⟩ := exists_of_bind_ok accepted
  obtain ⟨isData, read5, accepted⟩ := exists_of_bind_ok accepted
  obtain ⟨_, string, accepted⟩ := exists_of_bind_ok accepted
  obtain ⟨data, read5', accepted⟩ := exists_of_bind_ok accepted
  obtain ⟨v, read6, accepted⟩ := exists_of_bind_ok accepted
  obtain ⟨r, read7, accepted⟩ := exists_of_bind_ok accepted
  obtain ⟨s, read8, accepted⟩ := exists_of_bind_ok accepted
  obtain ⟨⟨chainId, signature⟩, unfolded, accepted⟩ :=
    exists_of_bind_ok accepted
  obtain ⟨sender, sent, accepted⟩ := exists_of_bind_ok accepted
  obtain ⟨count, counted, accepted⟩ := exists_of_bind_ok accepted
  obtain ⟨_, few, accepted⟩ := exists_of_bind_ok accepted
  cases accepted
  have nonempty : rlpData ≠ [] := by
    intro empty
    rw [empty] at isList
    cases isList
  obtain ⟨content, small, shape⟩ :=
    canonical_of_construct nonempty constructed
  have isEncodeList : rlpData = encodeList content := by
    rcases shape with rfl | same
    · have notList := isList_encodeData [] small
      rw [List.append_nil, isList] at notList
      cases notList
    · exact same
  subst isEncodeList
  obtain ⟨parts, areParts, rfl, length⟩ :=
    itemCount_ok small (mapError_ok counted)
  have limit := readLimit_lt
  have nine : parts.length ≤ 9 := by
    have bound := require_ok few
    rw [decide_eq_true_eq] at bound
    omega
  have found : ∀ {α : Type} {position : Nat}
      {read : Bytes → Except RLPError α} {value : α} (inRange : position < 9),
      field (encodeList parts.flatten) position read = .ok value →
        ∃ item, nthPart position parts.flatten = .ok item ∧
          MaybePart item ∧ read item = .ok value := by
    intro α position read value inRange accepted
    obtain ⟨item, found, read⟩ := field_ok accepted
    rw [at_encodeList small (by rw [sizeTRange_eq]; omega)] at found
    exact ⟨item, found, nthPart_shape found, read⟩
  obtain ⟨item0, found0, shape0, read0⟩ := found (by decide) read0
  obtain ⟨item1, found1, shape1, read1⟩ := found (by decide) read1
  obtain ⟨item2, found2, shape2, read2⟩ := found (by decide) read2
  obtain ⟨item3, found3, shape3, read3⟩ := found (by decide) read3
  obtain ⟨item3', found3', -, read3'⟩ := found (by decide) read3'
  obtain ⟨item4, found4, shape4, read4⟩ := found (by decide) read4
  obtain ⟨item5, found5, shape5, read5⟩ := found (by decide) read5
  obtain ⟨item5', found5', -, read5'⟩ := found (by decide) read5'
  obtain ⟨item6, found6, shape6, read6⟩ := found (by decide) read6
  obtain ⟨item7, found7, shape7, read7⟩ := found (by decide) read7
  obtain ⟨item8, found8, shape8, read8⟩ := found (by decide) read8
  cases found3.symm.trans found3'
  cases found5.symm.trans found5'
  have isString := require_ok string
  cases read3
  cases read5
  obtain ⟨number, numberSmall, rfl, written6⟩ := toInt32_ok shape6 read6
  obtain ⟨rEq, sEq, folded⟩ := unfold_ok numberSmall unfolded
  have written8 := toInt_word_ok shape8 read8
  have length9 : parts.length = 9 := by
    by_contra other
    have beyond := nthPart_beyond areParts (show parts.length ≤ 8 by omega)
    rw [found8, written8] at beyond
    exact absurd (Except.ok.inj beyond)
      (List.ne_nil_of_length_pos (encodeData_pos _))
  have whole : parts = [item0, item1, item2, item3, item4, item5, item6,
      item7, item8] := by
    have each : ∀ {position : Nat} {item : Bytes}
        (inRange : position < parts.length),
        nthPart position parts.flatten = .ok item →
          parts[position] = item := by
      intro position item inRange found
      have here := nthPart_parts areParts [] inRange
      rw [List.append_nil, found] at here
      exact (Except.ok.inj here).symm
    apply List.ext_getElem
    · exact length9
    · intro position left right
      match position with
      | 0 => exact each left found0
      | 1 => exact each left found1
      | 2 => exact each left found2
      | 3 => exact each left found3
      | 4 => exact each left found4
      | 5 => exact each left found5
      | 6 => exact each left found6
      | 7 => exact each left found7
      | 8 => exact each left found8
      | position + 9 => exact absurd right (by simp)
  have item6Eq : ∀ transaction : TransactionBase,
      transaction.vrs = some signature → transaction.chainId = chainId →
        (transaction.vItem signature % 2 ^ 32).toNat = number := by
    intro transaction signed chain
    rw [vItem, hasZeroSignature, signed, chain]
    exact folded
  refine ⟨signature, parts, rfl, ⟨?_, rfl, ?_, sent⟩, areParts, small, ?_, ?_,
    ?_⟩
  · by_cases empty : isEmpty item3 = true
    · rw [toReceiver, if_pos empty] at read3'
      exact .inr ⟨if_pos empty, (Except.ok.inj read3').symm⟩
    · exact .inl (if_neg empty)
  · rw [item6Eq]
    · rw [rEq, sEq]
      exact unfolded
    · rfl
    · rfl
  · rw [whole, toInt_word_ok shape0 read0, toInt_word_ok shape1 read1,
      toInt_word_ok shape2 read2]
    rfl
  · rw [whole]
    by_cases empty : isEmpty item3 = true
    · rcases isEmpty_ok shape3 empty with rfl | rfl
      · exact .inl rfl
      · exact .inr ⟨rfl, rfl⟩
    · rw [toReceiver, if_neg empty] at read3'
      have written3 := toHash_ok shape3 read3'
      left
      show some item3 = some (encodeData (if (if isEmpty item3 = true
        then TransactionType.contractCreation else .messageCall) = .messageCall
          then receiveAddress.val else []))
      rw [if_neg empty, if_pos rfl]
      exact congrArg some written3
  · rw [whole, toInt_word_ok shape4 read4, toBytes_ok shape5 read5' isString,
      written6, toInt_word_ok shape7 read7, written8]
    simp only [fieldParts, rEq, sEq]
    rw [item6Eq]
    · rfl
    · rfl
    · rfl

/-- What is written for a transaction that was read is read as this
transaction. -/
theorem ofRlp_listed (readAs : ReadAs checkSig transaction signature)
    (small : (transaction.fieldParts signature).flatten.length < readLimit) :
    ofRlp (transaction.listed signature) checkSig = .ok transaction := by
  have areParts := part_fieldParts small
  have constructed : construct (transaction.listed signature) .veryStrict =
      .ok (transaction.listed signature) :=
    (Part.list small).construct_veryStrict
  have list : RLP.isList (transaction.listed signature) = true :=
    isList_of_size (small.trans (by rw [readLimit_eq, sizeTRange_eq]; decide))
  have counted : itemCount (transaction.listed signature) = .ok 9 :=
    itemCount_parts areParts small
  have found : ∀ (position : Nat) (inRange : position < 9),
      at_ (transaction.listed signature) position =
        .ok ((transaction.fieldParts signature).get ⟨position, inRange⟩) :=
    fun position inRange => at_parts areParts small inRange
  have dataSmall : transaction.data.length < readLimit := by
    refine Nat.lt_of_le_of_lt ?_ small
    have member : encodeData transaction.data ∈
        transaction.fieldParts signature := by simp [fieldParts]
    exact (length_le_encodeData _).trans
      (List.sublist_flatten_of_mem member).length_le
  have string : RLP.isData (encodeData transaction.data) = true := by
    simpa using isData_encodeData [] dataSmall
  have text := toBytes_encodeData .laissezFaire dataSmall
  have number : (transaction.vItem signature % 2 ^ 32).toNat < 2 ^ 32 := by
    omega
  have words : ∀ (position : Nat) (inRange : position < 9) (word : U256),
      (transaction.fieldParts signature).get ⟨position, inRange⟩ =
        encodeData (intContent word.toNat) →
      field (transaction.listed signature) position (RLP.toInt .u256 ·) =
        .ok word.toNat := by
    intro position inRange word same
    refine field_eq (found position inRange) ?_
    rw [same]
    exact toInt_word word
  have read3 : field (transaction.listed signature) 3
      (fun item => .ok (RLP.isEmpty item)) =
        .ok (decide (transaction.type = .contractCreation)) := by
    refine field_eq (found 3 (by decide)) ?_
    show Except.ok (RLP.isEmpty (encodeData (if transaction.type =
      .messageCall then transaction.receiveAddress.val else []))) = _
    rcases readAs.type with call | ⟨creation, -⟩
    · have length := transaction.receiveAddress.property
      have limit : transaction.receiveAddress.val.length < readLimit := by
        rw [length, readLimit_eq]
        decide
      have notEmpty := isEmpty_encodeData [] limit
      rw [List.append_nil] at notEmpty
      rw [call, if_pos rfl, notEmpty]
      cases filled : transaction.receiveAddress.val with
      | nil =>
          rw [filled] at length
          cases length
      | cons first rest => rfl
    · rw [creation]
      rfl
  have read3' : field (transaction.listed signature) 3 toReceiver =
      .ok transaction.receiveAddress := by
    refine field_eq (found 3 (by decide)) ?_
    obtain ⟨item, itemFound, isEmpty⟩ := field_ok read3
    cases (found 3 (by decide)).symm.trans itemFound
    rw [toReceiver, Except.ok.inj isEmpty]
    rcases readAs.type with call | ⟨creation, zero⟩
    · rw [call, if_neg (by decide)]
      show toHash 20 (encodeData (if transaction.type =
        .messageCall then transaction.receiveAddress.val else [])) _ = _
      rw [call, if_pos rfl]
      exact toHash_hash _ (by rw [readLimit_eq]; decide)
    · rw [creation, if_pos (by decide), zero]
  have read5 : field (transaction.listed signature) 5
      (fun item => .ok (RLP.isData item)) = .ok true :=
    field_eq (found 5 (by decide)) (congrArg Except.ok string)
  have read5' : field (transaction.listed signature) 5 (RLP.toBytes ·) =
      .ok transaction.data := field_eq (found 5 (by decide)) text
  have read6 : field (transaction.listed signature) 6 toInt32 =
      .ok (intOfNat (transaction.vItem signature % 2 ^ 32).toNat) :=
    field_eq (found 6 (by decide)) (toInt32_intContent number)
  have type : (if decide (transaction.type = .contractCreation) = true
      then TransactionType.contractCreation else .messageCall) =
        transaction.type := by
    rcases readAs.type with call | ⟨creation, -⟩
    · rw [call]
      rfl
    · rw [creation]
      rfl
  have sender := readAs.sender
  have signed := readAs.signed
  simp only [ofRlp, constructed, Except.mapError, bind, Except.bind, require,
    list, if_true, words 0 (by decide) transaction.nonce rfl,
    words 1 (by decide) transaction.gasPrice rfl,
    words 2 (by decide) transaction.gas rfl, read3, read3',
    words 4 (by decide) transaction.value rfl, read5, read5', read6,
    words 7 (by decide) signature.r rfl, words 8 (by decide) signature.s rfl,
    BitVec.ofNat_toNat, BitVec.setWidth_eq, readAs.folded, type, ← signed]
  simp only [zeroAddress] at sender
  rw [sender]
  simp [counted, pure, Except.pure]

end Reading

/-! ## Identity -/

/-- The item of the receiver. -/
def receiverPart (transaction : TransactionBase) : Bytes :=
  encodeData (if transaction.type = .messageCall
    then transaction.receiveAddress.val else [])

theorem fieldParts_eq (transaction : TransactionBase)
    (signature : SignatureStruct) :
    transaction.fieldParts signature =
      (transaction.fieldParts signature).take 3 ++
        transaction.receiverPart ::
          (transaction.fieldParts signature).drop 4 := rfl

namespace ReadFrom

variable [Hashing] [Recovering] {checkSig : CheckTransaction}
  {parts : List Bytes}

theorem length (readFrom : ReadFrom checkSig transaction signature parts) :
    parts.length = 9 := by
  have dropped := congrArg List.length readFrom.after
  have count : ((transaction.fieldParts signature).drop 4).length = 5 := rfl
  rw [List.length_drop, count] at dropped
  omega

/-- The items, with the receiver either as it is written or as the empty
list. -/
theorem split (readFrom : ReadFrom checkSig transaction signature parts) :
    ∃ receiver, parts[3]? = some receiver ∧
      parts = (transaction.fieldParts signature).take 3 ++ receiver ::
        (transaction.fieldParts signature).drop 4 ∧
      (receiver = transaction.receiverPart ∨
        receiver = [0xc0] ∧ transaction.receiverPart = [0x80]) := by
  have inRange : 3 < parts.length := by
    rw [readFrom.length]
    decide
  have found : parts[3]? = some parts[3] := List.getElem?_eq_getElem inRange
  refine ⟨parts[3], found, ?_, ?_⟩
  · rw [← readFrom.before, ← readFrom.after, List.getElem_cons_drop inRange,
      List.take_append_drop]
  · have receiver := readFrom.receiver
    rw [found] at receiver
    rcases receiver with same | ⟨list, creation⟩
    · exact .inl (Option.some.inj same)
    · refine .inr ⟨Option.some.inj list, ?_⟩
      rw [receiverPart, creation]
      rfl

/-- What is written is as long as what was read. -/
theorem flatten_length
    (readFrom : ReadFrom checkSig transaction signature parts) :
    (transaction.fieldParts signature).flatten.length =
      parts.flatten.length := by
  obtain ⟨receiver, -, whole, receiverEq⟩ := readFrom.split
  have same : transaction.receiverPart.length = receiver.length := by
    rcases receiverEq with rfl | ⟨rfl, written⟩
    · rfl
    · rw [written]
      rfl
  rw [whole, fieldParts_eq]
  simp only [List.flatten_append, List.flatten_cons, List.length_append, same]
  rfl

theorem rlp (readFrom : ReadFrom checkSig transaction signature parts) :
    transaction.rlp .withSignature = .ok (transaction.listed signature) := by
  have limit := readLimit_lt
  have small := readFrom.small
  refine rlp_eq ?_ readFrom.readAs.signed ?_
  · rcases readFrom.readAs.type with call | ⟨creation, -⟩
    · rw [call]
      decide
    · rw [creation]
      decide
  · rw [readFrom.flatten_length]
    omega

theorem listed_eq_iff
    (readFrom : ReadFrom checkSig transaction signature parts) :
    transaction.listed signature = encodeList parts.flatten ↔
      parts[3]? ≠ some [0xc0] := by
  obtain ⟨receiver, found, whole, receiverEq⟩ := readFrom.split
  rw [found]
  rcases receiverEq with rfl | ⟨rfl, written⟩
  · have isData : transaction.receiverPart ≠ [0xc0] := by
      rw [receiverPart]
      split
      · have length := transaction.receiveAddress.property
        have longer :=
          length_le_encodeData transaction.receiveAddress.val
        intro same
        rw [same, length] at longer
        exact absurd longer (by decide)
      · decide
    have same : transaction.listed signature = encodeList parts.flatten := by
      rw [listed, fieldParts_eq, whole]
    exact ⟨fun _ equal => isData (Option.some.inj equal), fun _ => same⟩
  · constructor
    · intro same
      have lists := encodeList_injective same
      rw [fieldParts_eq, whole, written] at lists
      simp only [List.flatten_append, List.flatten_cons] at lists
      have heads := List.append_cancel_right (List.append_cancel_left lists)
      exact absurd heads (by decide)
    · intro other
      exact absurd rfl other

theorem at_three (readFrom : ReadFrom checkSig transaction signature parts) :
    at_ (encodeList parts.flatten) 3 = .ok [0xc0] ↔
      parts[3]? = some [0xc0] := by
  have inRange : 3 < parts.length := by
    rw [readFrom.length]
    decide
  rw [at_parts readFrom.areParts readFrom.small inRange,
    List.getElem?_eq_getElem inRange]
  constructor
  · intro same
    exact congrArg some (Except.ok.inj same)
  · intro same
    exact congrArg Except.ok (Option.some.inj same)

end ReadFrom

section Identity

variable [Hashing]

/-- The receiver is not the empty list. -/
def StrictReceiver (rlpData : Bytes) : Prop :=
  RLP.at_ rlpData 3 ≠ .ok [0xc0]

/-- Unless the hashes of what is written for them collide, two transactions
have different hashes. -/
def ToldApart (transaction other : TransactionBase) : Prop :=
  ∃ bytes bytes', transaction.rlp .withSignature = .ok bytes ∧
    other.rlp .withSignature = .ok bytes' ∧
    ((sha3 bytes = sha3 bytes' → bytes = bytes') →
      transaction.hash .withSignature ≠ other.hash .withSignature)

theorem hash_withSignature {bytes : Bytes}
    (written : transaction.rlp .withSignature = .ok bytes) :
    transaction.hash .withSignature = .ok (sha3 bytes) := by
  have plain : decide (0 < transaction.chainId ∧
      IncludeSignature.withSignature = .withoutSignature) = false := by
    simp
  rw [hash, plain, written]
  rfl

variable [Recovering]

/-- What was read as a transaction is what is written for it, and another one
has another hash, when the receiver is not the empty list. -/
theorem transaction_identity_iff {rlpData : Bytes}
    (accepted : ofRlp rlpData .cheap = .ok transaction) :
    (transaction.rlp .withSignature = .ok rlpData ∧
      (∀ (rlpData' : Bytes) (other : TransactionBase),
        ofRlp rlpData' .cheap = .ok other → StrictReceiver rlpData' →
          rlpData' ≠ rlpData → transaction.ToldApart other) ∧
      ∃ bytes, transaction.rlp .withSignature = .ok bytes ∧
        ofRlp bytes .cheap = .ok transaction) ↔ StrictReceiver rlpData := by
  obtain ⟨signature, parts, rfl, readFrom⟩ := ofRlp_ok accepted
  have written := readFrom.rlp
  have small : (transaction.fieldParts signature).flatten.length <
      readLimit := by
    rw [readFrom.flatten_length]
    exact readFrom.small
  have same := readFrom.listed_eq_iff
  rw [Ne, ← readFrom.at_three] at same
  constructor
  · intro all
    rw [written] at all
    exact same.mp (Except.ok.inj all.1)
  · intro strict
    have itself := same.mpr strict
    refine ⟨by rw [written, itself], ?_,
      ⟨_, written, ofRlp_listed readFrom.readAs small⟩⟩
    intro rlpData' other acceptedOther strictOther different
    obtain ⟨signature', parts', rfl, readFrom'⟩ := ofRlp_ok acceptedOther
    have same' := readFrom'.listed_eq_iff
    rw [Ne, ← readFrom'.at_three] at same'
    have written' := readFrom'.rlp
    rw [itself] at written
    rw [same'.mpr strictOther] at written'
    refine ⟨_, _, written, written', ?_⟩
    intro injective equal
    rw [hash_withSignature written, hash_withSignature written'] at equal
    exact different (injective (Except.ok.inj equal)).symm

end Identity

section Sample

/-- The hash of the bytes below. -/
def transactionSampleHashing : Hashing where
  sha3 _ := hashOfNat
    0x3fc8d39210316984c3d4d3786128ebcd3c83b04e770721983b76759eac1db95e
  trieRoot _ := ⟨List.replicate 32 0, length_zeroes_h256⟩

def transactionSampleRecovering : Recovering where
  recover _ _ := none

attribute [local instance] transactionSampleHashing
  transactionSampleRecovering

/-- A contract creation. -/
def transactionSample : TransactionBase where
  type := .contractCreation
  gasPrice := 1
  gas := 2
  vrs := some ⟨1, 1, 0⟩

def transactionSampleBytes : Bytes :=
  [0xc9, 0x80, 0x01, 0x02, 0x80, 0x80, 0x80, 0x1b, 0x01, 0x01]

theorem transaction_sample :
    ofRlp transactionSampleBytes .cheap = .ok transactionSample := by
  decide +kernel

theorem transaction_identity_iff_sample :
    (transactionSample.rlp .withSignature = .ok transactionSampleBytes ∧
      (∀ (rlpData' : Bytes) (other : TransactionBase),
        ofRlp rlpData' .cheap = .ok other → StrictReceiver rlpData' →
          rlpData' ≠ transactionSampleBytes →
            transactionSample.ToldApart other) ∧
      ∃ bytes, transactionSample.rlp .withSignature = .ok bytes ∧
        ofRlp bytes .cheap = .ok transactionSample) ↔
      StrictReceiver transactionSampleBytes :=
  transaction_identity_iff transaction_sample

/-- The same with the empty list for the receiver. -/
def lenientTransactionBytes : Bytes :=
  [0xc9, 0x80, 0x01, 0x02, 0xc0, 0x80, 0x80, 0x1b, 0x01, 0x01]

/-- The same transaction is read from other bytes. -/
theorem lenient_receiver :
    ¬∀ (rlpData : Bytes) (transaction : TransactionBase),
      ofRlp rlpData .cheap = .ok transaction →
        transaction.rlp .withSignature = .ok rlpData := by
  intro all
  have accepted : ofRlp lenientTransactionBytes .cheap =
      .ok transactionSample := by decide +kernel
  have written := all _ _ accepted
  revert written
  decide +kernel

end Sample

end TransactionBase

end Aecmio
