import Aecmio.Rlp.Stream

/-!
# Length prefixes as the reader sees them

`Framed view header content rest` says that the reader splits `view` into a
prefix, a payload and the bytes after the item.  A view that starts with a
canonical encoding is framed by it, and whatever the reader accepts as a
prefix is canonical.
-/

namespace Aecmio

namespace RLP

open Item

/-! ## Cropping -/

theorem cropped_eq {view : Bytes} {start count : Nat}
    (small : view.length < sizeTRange - 1)
    (inside : start + count ≤ view.length) :
    cropped view start count = (view.drop start).take count := by
  have sum : (start + count) % sizeTRange = start + count :=
    Nat.mod_eq_of_lt (by omega)
  have ordinary : count ≠ sizeTRange - 1 := by omega
  have guard : start ≤ view.length ∧ count ≤ view.length ∧
      (start + count) % sizeTRange ≤ view.length := by
    rw [sum]
    omega
  simp [cropped, VectorRef.whole, VectorRef.cropped, VectorRef.contents,
    if_pos guard, ordinary]

theorem croppedFrom_eq {view : Bytes} {start : Nat}
    (inside : start ≤ view.length) :
    croppedFrom view start = view.drop start := by
  simp [croppedFrom, VectorRef.whole, VectorRef.croppedFrom,
    VectorRef.contents, inside, List.take_of_length_le]

/-! ## Long lengths -/

/-- Payloads of this size on are refused by the reader. -/
def readLimit : Nat := sizeTRange - 0x101

theorem readLimit_eq : readLimit = 18446744073709551359 := rfl

theorem foldl_reduce (content : Bytes) (short : content.length ≤ 8) :
    content.foldl
      (fun result byte => (result * 256 + byte.toNat) % sizeTRange) 0 =
        fromBigEndian content := by
  induction content using List.reverseRecOn with
  | nil => rfl
  | append_singleton content byte induction =>
      have shorter : content.length ≤ 7 := by
        simp only [List.length_append, List.length_singleton] at short
        omega
      have bound : fromBigEndian content < 256 ^ 7 :=
        Nat.lt_of_lt_of_le (fromBigEndian_lt content)
          (Nat.pow_le_pow_right (by decide) shorter)
      have byteBound : byte.toNat < 256 := byte.toNat_lt
      rw [List.foldl_append, induction (by omega)]
      simp only [List.foldl_cons, List.foldl_nil, fromBigEndian_concat]
      apply Nat.mod_eq_of_lt
      unfold sizeTRange
      omega

theorem bytesRequired_le_eight {size : Nat} (small : size < readLimit) :
    bytesRequired size ≤ 8 := by
  rw [readLimit_eq] at small
  rw [bytesRequired_le_iff]
  omega

theorem longLength_toBigEndian {size : Nat} (first : UInt8) (rest : Bytes)
    (large : 56 ≤ size) (small : size < readLimit) :
    longLength (first :: toBigEndian size (bytesRequired size) ++ rest)
      (bytesRequired size) 56 = .ok size := by
  have digits := bytesRequired_le_eight small
  obtain ⟨lead, others, split, nonzero⟩ :=
    toBigEndian_bytesRequired_cons (show 0 < size by omega)
  have taken : ((first :: toBigEndian size (bytesRequired size) ++ rest).drop
      1).take (bytesRequired size) =
        toBigEndian size (bytesRequired size) := by
    simp
  have folded := foldl_reduce (toBigEndian size (bytesRequired size))
    (by simpa using digits)
  rw [fromBigEndian_toBigEndian (lt_pow_bytesRequired size)] at folded
  have head : ((first :: toBigEndian size (bytesRequired size) ++ rest).drop
      1).head? ≠ some 0 := by
    simp [split, nonzero]
  have long : ¬ (first :: toBigEndian size (bytesRequired size) ++
      rest).length ≤ bytesRequired size := by
    simp
  have fits : ¬ rlpMaxLengthBytes < bytesRequired size := by
    unfold rlpMaxLengthBytes
    omega
  have bounded : ¬ sizeTRange - 1 - 0x100 ≤ size := by
    rw [readLimit_eq] at small
    rw [sizeTRange_eq]
    omega
  have notSmall : ¬ size < 56 := by omega
  simp only [longLength, if_neg long, if_neg head, if_neg fits, taken, folded,
    if_neg notSmall, if_neg bounded]

/-- An accepted long length is written with the fewest bytes. -/
theorem longLength_ok {view : Bytes} {lengthSize size : Nat}
    (positive : 0 < lengthSize)
    (accepted : longLength view lengthSize 56 = .ok size) :
    lengthSize = bytesRequired size ∧ 56 ≤ size ∧
      size < readLimit ∧ lengthSize < view.length ∧
      (view.drop 1).take lengthSize = toBigEndian size lengthSize := by
  unfold longLength at accepted
  split at accepted
  · cases accepted
  rename_i long
  split at accepted
  · cases accepted
  rename_i head
  split at accepted
  · cases accepted
  rename_i fits
  simp only at accepted
  have short : ((view.drop 1).take lengthSize).length = lengthSize := by
    simp
    omega
  have digits : lengthSize ≤ 8 := by
    unfold rlpMaxLengthBytes at fits
    omega
  rw [foldl_reduce _ (by omega)] at accepted
  split at accepted
  · cases accepted
  rename_i notSmall
  split at accepted
  · cases accepted
  rename_i bounded
  cases accepted
  have restored :=
    toBigEndian_fromBigEndian ((view.drop 1).take lengthSize)
  rw [short] at restored
  refine ⟨?_, by omega, by unfold readLimit; omega, by omega, restored.symm⟩
  cases viewTail : view.drop 1 with
  | nil =>
      rw [viewTail] at short
      simp at short
      omega
  | cons lead others =>
      obtain ⟨count, rfl⟩ : ∃ count, lengthSize = count + 1 :=
        ⟨lengthSize - 1, by omega⟩
      have nonzero : lead ≠ 0 := by
        rw [viewTail] at head
        simpa using head
      rw [viewTail, List.take_succ_cons] at short
      rw [List.take_succ_cons, bytesRequired_fromBigEndian nonzero]
      simpa using short.symm

/-! ## Framed views -/

/-- The reader splits `view` into a prefix, a payload and a remainder. -/
structure Framed (view header content rest : Bytes) : Prop where
  split : view = header ++ content ++ rest
  nonempty : 0 < header.length + content.length
  small : header.length + content.length < sizeTRange - 1
  length : RLP.length view = .ok content.length
  offset : payloadOffset view = header.length
  single : isSingleByte view → content.length = 1

namespace Framed

variable {view header content rest : Bytes}

theorem length_eq (framed : Framed view header content rest) :
    view.length = header.length + content.length + rest.length := by
  simp [framed.split]
  omega

theorem notNull (framed : Framed view header content rest) :
    isNull view = false := by
  have positive := framed.nonempty
  have length := framed.length_eq
  cases view with
  | nil =>
      simp at length
      omega
  | cons _ _ => rfl

theorem actualSize (framed : Framed view header content rest) :
    RLP.actualSize view = .ok (header.length + content.length) := by
  have small := framed.small
  by_cases single : isSingleByte view
  · have headerEmpty : header.length = 0 := by
      rw [← framed.offset]
      simp [payloadOffset, single]
    have one := framed.single single
    simp [RLP.actualSize, framed.notNull, single, pure, Except.pure, one,
      headerEmpty]
  · have sum : (header.length + content.length) % sizeTRange =
        header.length + content.length := by
      apply Nat.mod_eq_of_lt
      omega
    simp [RLP.actualSize, framed.notNull, single, framed.length,
      framed.offset, bind, Except.bind, pure, Except.pure, sum]

theorem construct_throwIfTooSmall
    (framed : Framed view header content rest) :
    construct view .throwIfTooSmall = .ok view := by
  have length := framed.length_eq
  have fits : ¬ view.length < header.length + content.length := by omega
  simp [construct, Strictness.throwIfTooSmall, framed.actualSize, bind,
    Except.bind, pure, Except.pure, fits]

theorem sizeAsEncoded (framed : Framed view header content rest) :
    RLP.sizeAsEncoded view = .ok (header.length + content.length) := by
  simp [RLP.sizeAsEncoded, framed.construct_throwIfTooSmall,
    framed.actualSize, bind, Except.bind]

theorem construct_veryStrict (framed : Framed view header content []) :
    construct view .veryStrict = .ok view := by
  have length := framed.length_eq
  have exact : view.length = header.length + content.length := by
    simpa using length
  simp [construct, Strictness.veryStrict, framed.actualSize, bind,
    Except.bind, pure, Except.pure, exact]

theorem payloadRef (framed : Framed view header content rest)
    (bounded : view.length < sizeTRange - 1) :
    RLP.payloadRef view = .ok ⟨some header.length, content.length⟩ := by
  have length := framed.length_eq
  have small := framed.small
  have fits : ¬ view.length < content.length := by omega
  have sum : (header.length + content.length) % sizeTRange =
      header.length + content.length :=
    Nat.mod_eq_of_lt (by omega)
  have ordinary : content.length ≠ sizeTRange - 1 := by omega
  have guard : header.length ≤ view.length ∧ content.length ≤ view.length ∧
      (header.length + content.length) % sizeTRange ≤ view.length := by
    rw [sum]
    omega
  simp only [RLP.payloadRef, framed.length, framed.offset, bind, Except.bind,
    pure, Except.pure, if_neg fits, VectorRef.cropped, VectorRef.whole,
    if_pos guard, if_neg ordinary, Nat.zero_add]

theorem payload (framed : Framed view header content rest)
    (bounded : view.length < sizeTRange - 1) :
    RLP.payload view = .ok content := by
  have taken : (view.drop header.length).take content.length = content := by
    simp [framed.split]
  simp only [RLP.payload, framed.payloadRef bounded, bind, Except.bind, pure,
    Except.pure, VectorRef.contents, taken]

end Framed

/-! ## Canonical prefixes are read back -/

/-- The part of a string's encoding in front of its content. -/
def dataHeader (content : Bytes) : Bytes :=
  if standsForItself content then [] else lengthPrefix 0x80 content.length

def listHeader (payload : Bytes) : Bytes := lengthPrefix 0xc0 payload.length

theorem encodeData_eq_append (content : Bytes) :
    encodeData content = dataHeader content ++ content := by
  unfold encodeData dataHeader
  split <;> simp

theorem encodeList_eq_append (payload : Bytes) :
    encodeList payload = listHeader payload ++ payload := rfl

theorem toNat_ofNat_of_lt {value : Nat} (small : value < 256) :
    (UInt8.ofNat value).toNat = value := by
  simp [Nat.mod_eq_of_lt small]

/-- A string of one byte that is not its own encoding is not below `0x80`,
so no canonical prefix is rejected. -/
theorem requireGood_shortPrefix {start : Nat} {first : UInt8} {content : Bytes}
    (rest : Bytes) (family : start = 128 ∨ start = 192)
    (firstByte : first.toNat = start + content.length)
    (short : content.length < 56)
    (wrapped : start = 128 → standsForItself content = false) :
    requireGood (first :: content ++ rest) = .ok () := by
  by_cases one : start + content.length = 129
  · obtain ⟨byte, rfl⟩ : ∃ byte, content = [byte] :=
      List.length_eq_one_iff.mp (by omega)
    have string : start = 128 := by
      simp only [List.length_singleton] at one
      omega
    have high : ¬ byte.toNat < 128 := by
      simpa [standsForItself] using wrapped string
    simp [requireGood, firstByte, string, high]
  · simp [requireGood, firstByte, one]

/-- A payload below 56 bytes has its size in the first byte. -/
theorem framed_shortPrefix {start : Nat} {first : UInt8} {content : Bytes}
    (rest : Bytes) (family : start = 128 ∨ start = 192)
    (firstByte : first.toNat = start + content.length)
    (short : content.length < 56)
    (wrapped : start = 128 → standsForItself content = false) :
    Framed (first :: content ++ rest) [first] content rest := by
  have good := requireGood_shortPrefix rest family firstByte short wrapped
  have notSingle : ¬ start + content.length < 128 := by omega
  refine ⟨by simp, by simp, by simp [sizeTRange_eq]; omega, ?_, ?_, ?_⟩
  · simp only [List.cons_append] at good ⊢
    simp only [RLP.length, good, firstByte, bind, Except.bind,
      rlpDataImmLenStart_eq, rlpDataIndLenZero_eq, rlpListStart_eq,
      rlpListIndLenZero_eq, if_neg notSingle]
    rcases family with rfl | rfl
    · rw [if_pos (by omega), Nat.add_sub_cancel_left]
    · rw [if_neg (by omega), if_neg (by omega), if_pos (by omega),
        Nat.add_sub_cancel_left]
  · have noLength : lengthSize (first :: content ++ rest) = 0 := by
      simp only [List.cons_append, lengthSize, firstByte, rlpListStart_eq,
        rlpDataIndLenZero_eq, rlpListIndLenZero_eq]
      split <;> omega
    simp only [payloadOffset, noLength]
    simp [isSingleByte, firstByte]
    omega
  · simp [isSingleByte, firstByte]
    omega

/-- A longer payload has its size in the bytes after the first one. -/
theorem framed_longPrefix {start : Nat} {first : UInt8} {content : Bytes}
    (rest : Bytes) (family : start = 128 ∨ start = 192)
    (firstByte : first.toNat = start + 55 + bytesRequired content.length)
    (long : ¬ content.length < 56) (small : content.length < readLimit) :
    Framed
      (first :: toBigEndian content.length (bytesRequired content.length) ++
        (content ++ rest))
      (first :: toBigEndian content.length (bytesRequired content.length))
      content rest := by
  have digits := bytesRequired_le_eight small
  have count := bytesRequired_pos (show 0 < content.length by omega)
  have reading := longLength_toBigEndian first (content ++ rest)
    (by omega) small
  have notSingle : ¬ start + 55 + bytesRequired content.length < 128 := by
    omega
  have notOne : start + 55 + bytesRequired content.length ≠ 129 := by omega
  have total : 1 + bytesRequired content.length + content.length <
      sizeTRange - 1 := by
    rw [readLimit_eq] at small
    rw [sizeTRange_eq]
    omega
  simp only [List.cons_append] at reading
  refine ⟨by simp, by simp, by simp; omega, ?_, ?_, ?_⟩
  · simp only [List.cons_append, RLP.length, requireGood, firstByte, ne_eq,
      rlpDataImmLenStart_eq, rlpDataIndLenZero_eq, rlpListStart_eq,
      rlpListIndLenZero_eq, rlpMaxLengthBytes_eq, Nat.reduceAdd, notOne,
      not_false_eq_true, if_true, bind, Except.bind, if_neg notSingle,
      Nat.reduceSub]
    rcases family with rfl | rfl
    · rw [if_neg (by omega), if_pos (by omega), Nat.add_sub_cancel_left]
      exact reading
    · rw [if_neg (by omega), if_neg (by omega), if_neg (by omega),
        Nat.add_sub_cancel_left]
      exact reading
  · have lengthBytes : lengthSize
        (first :: toBigEndian content.length (bytesRequired content.length) ++
          (content ++ rest)) = bytesRequired content.length := by
      simp only [List.cons_append, lengthSize, firstByte, rlpListStart_eq,
        rlpDataIndLenZero_eq, rlpListIndLenZero_eq]
      split <;> omega
    simp only [payloadOffset, lengthBytes]
    simp [isSingleByte, firstByte, Nat.add_comm]
    omega
  · simp [isSingleByte, firstByte]
    omega

theorem framed_lengthPrefix {start : Nat} {content : Bytes} (rest : Bytes)
    (family : start = 128 ∨ start = 192) (small : content.length < readLimit)
    (wrapped : start = 128 → standsForItself content = false) :
    Framed (lengthPrefix start content.length ++ content ++ rest)
      (lengthPrefix start content.length) content rest := by
  have digits := bytesRequired_le_eight small
  unfold lengthPrefix
  split
  · rename_i short
    simpa using framed_shortPrefix rest family
      (toNat_ofNat_of_lt (by omega)) short wrapped
  · rename_i long
    simpa using framed_longPrefix rest family
      (toNat_ofNat_of_lt (by omega)) long small

theorem framed_encodeData {content : Bytes} (rest : Bytes)
    (small : content.length < readLimit) :
    Framed (encodeData content ++ rest) (dataHeader content) content rest := by
  rw [encodeData_eq_append, dataHeader]
  cases itself : standsForItself content with
  | true =>
      match content, itself with
      | [byte], itself =>
          have low : byte.toNat < 128 := by simpa [standsForItself] using itself
          have good : byte.toNat ≠ 129 := by omega
          constructor <;>
            simp [RLP.length, requireGood, payloadOffset, isSingleByte, low,
              good, bind, Except.bind, sizeTRange_eq]
  | false =>
      exact framed_lengthPrefix rest (.inl rfl) small (fun _ => itself)

theorem framed_encodeList {payload : Bytes} (rest : Bytes)
    (small : payload.length < readLimit) :
    Framed (encodeList payload ++ rest) (listHeader payload) payload rest := by
  rw [encodeList_eq_append, listHeader]
  exact framed_lengthPrefix rest (.inr rfl) small (by omega)

/-! ## Accepted prefixes are canonical -/

theorem ofNat_toNat_eq {first : UInt8} {value : Nat}
    (equal : first.toNat = value) : UInt8.ofNat value = first := by
  simp [← equal]

theorem singleton_eq_lengthPrefix {start size : Nat} {first : UInt8}
    (firstByte : first.toNat = start + size) (short : size < 56) :
    [first] = lengthPrefix start size := by
  simp [lengthPrefix, short, ofNat_toNat_eq firstByte]

theorem cons_take_eq_lengthPrefix {start size lengthSize : Nat}
    {first : UInt8} {tail : Bytes}
    (firstByte : first.toNat = start + 55 + lengthSize)
    (positive : 0 < lengthSize)
    (accepted : longLength (first :: tail) lengthSize 56 = .ok size) :
    first :: tail.take lengthSize = lengthPrefix start size ∧
      lengthSize ≤ tail.length ∧ size < readLimit := by
  obtain ⟨count, large, small, inside, digits⟩ :=
    longLength_ok positive accepted
  have notShort : ¬ size < 56 := by omega
  refine ⟨?_, by simpa using inside, small⟩
  simp only [lengthPrefix, if_neg notShort, ← count,
    ofNat_toNat_eq firstByte]
  simpa using digits

theorem requireGood_of_length {first : UInt8} {tail : Bytes} {size : Nat}
    (accepted : RLP.length (first :: tail) = .ok size) :
    requireGood (first :: tail) = .ok () := by
  cases good : requireGood (first :: tail) with
  | error error =>
      simp [RLP.length, good, bind, Except.bind] at accepted
  | ok _ => rfl

/-- A string payload behind an accepted short prefix is not a single byte
below `0x80`. -/
theorem not_standsForItself {content : Bytes} (length : content.length ≠ 1) :
    standsForItself content = false := by
  cases content with
  | nil => rfl
  | cons byte rest =>
      cases rest with
      | nil => exact absurd rfl length
      | cons other rest => rfl

theorem not_standsForItself_of_requireGood {first : UInt8} {tail : Bytes}
    {size : Nat} (firstByte : first.toNat = 128 + size)
    (inside : size ≤ tail.length)
    (good : requireGood (first :: tail) = .ok ()) :
    standsForItself (tail.take size) = false := by
  by_cases one : size = 1
  · subst one
    cases tail with
    | nil => simp at inside
    | cons second others =>
        simp only [requireGood, firstByte, rlpDataImmLenStart_eq] at good
        by_cases low : second.toNat < 128
        · simp [low] at good
        · simpa [standsForItself] using low
  · have length : (tail.take size).length = size := by simp [inside]
    exact not_standsForItself (by rw [length]; exact one)

/-- Whatever the reader accepts as a prefix starts a canonical encoding. -/
theorem canonical_of_length {view : Bytes} {size : Nat}
    (nonempty : view ≠ []) (accepted : RLP.length view = .ok size)
    (fits : payloadOffset view + size ≤ view.length) :
    ∃ content rest, content.length = size ∧ size < readLimit ∧
      ((isData view = true ∧ view = encodeData content ++ rest) ∨
        (isList view = true ∧ view = encodeList content ++ rest)) := by
  obtain ⟨first, tail, rfl⟩ := List.exists_cons_of_ne_nil nonempty
  have good := requireGood_of_length accepted
  have bound : first.toNat < 256 := first.toNat_lt
  simp only [RLP.length, good, bind, Except.bind, rlpDataImmLenStart_eq,
    rlpDataIndLenZero_eq, rlpListStart_eq, rlpListIndLenZero_eq,
    rlpMaxLengthBytes_eq] at accepted
  by_cases single : first.toNat < 128
  · -- a single byte
    rw [if_pos single] at accepted
    cases accepted
    refine ⟨[first], tail, rfl, by rw [readLimit_eq]; omega, .inl ⟨?_, ?_⟩⟩
    · simp [isData]
      omega
    · simp [encodeData, standsForItself, single]
  rw [if_neg single] at accepted
  have offset : payloadOffset (first :: tail) =
      1 + lengthSize (first :: tail) := by
    simp [payloadOffset, isSingleByte, single]
  rw [offset] at fits
  by_cases shortString : first.toNat ≤ 183
  · -- a short string
    rw [if_pos shortString] at accepted
    obtain rfl : first.toNat - 128 = size := Except.ok.inj accepted
    have inside : first.toNat - 128 ≤ tail.length := by
      simp at fits
      omega
    have firstByte : first.toNat = 128 + (first.toNat - 128) := by omega
    have wrapped := not_standsForItself_of_requireGood firstByte inside good
    have length : (tail.take (first.toNat - 128)).length =
        first.toNat - 128 := by simp [inside]
    refine ⟨tail.take (first.toNat - 128), tail.drop (first.toNat - 128),
      length, by rw [readLimit_eq]; omega, .inl ⟨?_, ?_⟩⟩
    · simp [isData]
      omega
    · simp [encodeData, wrapped, length,
        ← singleton_eq_lengthPrefix firstByte (by omega)]
  rw [if_neg shortString] at accepted
  by_cases string : first.toNat < 192
  · -- a long string
    rw [if_pos string] at accepted
    have firstByte : first.toNat = 128 + 55 + (first.toNat - 183) := by omega
    obtain ⟨header, inside, small⟩ := cons_take_eq_lengthPrefix firstByte
      (by omega) accepted
    have lengthBytes : lengthSize (first :: tail) = first.toNat - 183 := by
      simp [lengthSize, string]
    have enough : first.toNat - 183 + size ≤ tail.length := by
      rw [lengthBytes] at fits
      simp at fits
      omega
    have length : ((tail.drop (first.toNat - 183)).take size).length =
        size := by
      simp
      omega
    have large : 56 ≤ size :=
      (longLength_ok (show 0 < first.toNat - 183 by omega) accepted).2.1
    have wrapped : standsForItself
        ((tail.drop (first.toNat - 183)).take size) = false := by
      apply not_standsForItself
      omega
    refine ⟨(tail.drop (first.toNat - 183)).take size,
      (tail.drop (first.toNat - 183)).drop size, length, small,
      .inl ⟨?_, ?_⟩⟩
    · simp [isData, string]
    · rw [encodeData, wrapped, length, ← header]
      simp [List.append_assoc]
  rw [if_neg string] at accepted
  have isList : isList (first :: tail) = true := by
    simp [RLP.isList]
    omega
  by_cases shortList : first.toNat ≤ 247
  · -- a short list
    rw [if_pos shortList] at accepted
    obtain rfl : first.toNat - 192 = size := Except.ok.inj accepted
    have inside : first.toNat - 192 ≤ tail.length := by
      simp at fits
      omega
    have firstByte : first.toNat = 192 + (first.toNat - 192) := by omega
    have length : (tail.take (first.toNat - 192)).length =
        first.toNat - 192 := by simp [inside]
    refine ⟨tail.take (first.toNat - 192), tail.drop (first.toNat - 192),
      length, by rw [readLimit_eq]; omega, .inr ⟨isList, ?_⟩⟩
    simp [encodeList, length,
      ← singleton_eq_lengthPrefix firstByte (by omega)]
  · -- a long list
    rw [if_neg shortList] at accepted
    have firstByte : first.toNat = 192 + 55 + (first.toNat - 247) := by omega
    obtain ⟨header, inside, small⟩ := cons_take_eq_lengthPrefix firstByte
      (by omega) accepted
    have lengthBytes : lengthSize (first :: tail) = first.toNat - 247 := by
      simp [lengthSize, string]
    have enough : first.toNat - 247 + size ≤ tail.length := by
      rw [lengthBytes] at fits
      simp at fits
      omega
    have length : ((tail.drop (first.toNat - 247)).take size).length =
        size := by
      simp
      omega
    refine ⟨(tail.drop (first.toNat - 247)).take size,
      (tail.drop (first.toNat - 247)).drop size, length, small,
      .inr ⟨isList, ?_⟩⟩
    rw [encodeList, length, ← header]
    simp [List.append_assoc]

end RLP

end Aecmio
