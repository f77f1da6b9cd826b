import Aecmio.Rlp.Writing

/-!
# What a stream writes, the reader returns

Trees of items are written in any mixture of the two list styles and read
back; non-negative integers are written by `append(bigint)` and read back by
`toInt` of a type that holds them.
-/

namespace Aecmio

open Item

namespace RLPStream

/-- The content of the string that stands for a number. -/
def intContent (value : Nat) : Bytes :=
  toBigEndian value (bytesRequired value)

/-- `append(bigint)` writes a non-negative number as the string of its
shortest big-endian representation. -/
theorem appendInt_eq {value : Nat} (stream : RLPStream)
    (small : bytesRequired value < 2 ^ 32) :
    stream.appendInt value =
      stream.appendRaw (encodeData (intContent value)) 1 := by
  by_cases zero : value = 0
  · subst zero
    rfl
  by_cases itself : value < 128
  · have digits : bytesRequired value = 1 := by
      rw [bytesRequired_of_pos (by omega),
        show value / 256 = 0 by omega, bytesRequired_zero]
    have content : intContent value = [UInt8.ofNat value] := by
      simp [intContent, digits, toBigEndian]
    have low : standsForItself [UInt8.ofNat value] = true := by
      simp [standsForItself]
      omega
    have conversion : ((value : Int) % 256).toNat = value := by omega
    simp [appendInt, zero, itself, content, encodeData, low, conversion,
      appendRaw, bind, Except.bind, pure, Except.pure]
  have digits : bytesRequired value % 4294967296 = bytesRequired value :=
    Nat.mod_eq_of_lt small
  have length : (intContent value).length = bytesRequired value := by
    simp [intContent]
  have wrapped : standsForItself (intContent value) = false := by
    cases content : intContent value with
    | nil => rfl
    | cons byte rest =>
        cases rest with
        | nil =>
            have one : bytesRequired value = 1 := by
              rw [← length, content]
              rfl
            have value' : byte = UInt8.ofNat value := by
              simpa [intContent, one, toBigEndian] using content.symm
            have bound : value < 256 ^ bytesRequired value :=
              lt_pow_bytesRequired value
            rw [one] at bound
            simp [standsForItself, value']
            omega
        | cons other rest => rfl
  have encoded : encodeData (intContent value) =
      lengthPrefix 128 (bytesRequired value) ++
        toBigEndian value (bytesRequired value) := by
    rw [encodeData, wrapped, length]
    rfl
  rw [encoded]
  by_cases short : bytesRequired value < 56
  · simp [appendInt, zero, itself, digits, lengthPrefix, short, appendRaw,
      bind, Except.bind, pure, Except.pure, Nat.add_comm]
  · have lengthDigits : bytesRequired (bytesRequired value) ≤ 4 := by
      rw [bytesRequired_le_iff]
      omega
    have fits : ¬ 255 < 183 + bytesRequired (bytesRequired value) := by omega
    simp [appendInt, zero, itself, digits, lengthPrefix, short, fits,
      appendRaw, bind, Except.bind, pure, Except.pure]

end RLPStream

namespace RLP

/-- A string without leading zeros passes the canonicity check of `toInt`. -/
theorem isInt_encodeData {content : Bytes}
    (small : content.length < readLimit)
    (canonical : content.head? ≠ some 0) :
    isInt (encodeData content) = .ok true := by
  have good := requireGood_encodeData small
  unfold encodeData at good ⊢
  cases itself : standsForItself content with
  | true =>
      match content, itself with
      | [byte], itself =>
          have low : byte.toNat < 128 := by simpa [standsForItself] using itself
          have nonzero : byte ≠ 0 := by simpa using canonical
          rw [itself, if_pos rfl] at good
          simp [isInt, good, low, nonzero, bind, Except.bind, pure,
            Except.pure]
  | false =>
      simp only [itself, Bool.false_eq_true, if_false] at good ⊢
      have digits := bytesRequired_le_eight small
      unfold lengthPrefix at good ⊢
      by_cases short : content.length < 56
      · simp only [if_pos short, List.cons_append, List.nil_append] at good ⊢
        have first := toNat_ofNat_of_lt
          (show 128 + content.length < 256 by omega)
        have notSingle : ¬ 128 + content.length < 128 := by omega
        have upper : 128 + content.length ≤ 183 := by omega
        cases content with
        | nil => rfl
        | cons lead others =>
            have nonzero : lead ≠ 0 := by simpa using canonical
            have notZero : 128 + (lead :: others).length ≠ 128 := by simp
            simp only [isInt, good, first, bind, Except.bind,
              rlpDataImmLenStart_eq, rlpDataIndLenZero_eq, if_neg notSingle,
              if_neg notZero, if_pos upper]
            simp [nonzero, pure, Except.pure]
      · simp only [if_neg short, List.cons_append] at good ⊢
        have first := toNat_ofNat_of_lt
          (show 128 + 55 + bytesRequired content.length < 256 by omega)
        have count := bytesRequired_pos (show 0 < content.length by omega)
        have skipped : 128 + 55 + bytesRequired content.length - 183 =
            bytesRequired content.length := by omega
        obtain ⟨lead, others, rfl⟩ :=
          List.exists_cons_of_length_pos (show 0 < content.length by omega)
        have nonzero : lead ≠ 0 := by simpa using canonical
        simp only [isInt, good, first, bind, Except.bind,
          rlpDataImmLenStart_eq, rlpDataIndLenZero_eq, rlpListStart_eq,
          skipped]
        rw [if_neg (by omega), if_neg (by omega), if_neg (by omega),
          if_pos (by omega), if_neg (by simp; omega)]
        simp [pure, Except.pure, nonzero]

theorem fromBigEndianAs_eq {type : IntType} {content : Bytes}
    (fits : content.length ≤ type.maxSize) :
    fromBigEndianAs type content = fromBigEndian content := by
  induction content using List.reverseRecOn with
  | nil => rfl
  | append_singleton content byte induction =>
      have shorter : content.length + 1 ≤ type.maxSize := by simpa using fits
      have bound : fromBigEndian (content ++ [byte]) < 256 ^ type.maxSize :=
        Nat.lt_of_lt_of_le (fromBigEndian_lt _)
          (Nat.pow_le_pow_right (by decide) (by simpa using fits))
      have inner := induction (by omega)
      have step : fromBigEndianAs type (content ++ [byte]) =
          type.reduce (fromBigEndian (content ++ [byte])) := by
        rw [fromBigEndian_concat, ← inner]
        simp [fromBigEndianAs]
      rw [step]
      cases type <;> first
        | rfl
        | exact Nat.mod_eq_of_lt bound

/-- A number is read back by every type that is large enough. -/
theorem toInt_intContent {type : IntType} {value : Nat}
    (holds : value < 256 ^ type.maxSize) :
    toInt type (encodeData (RLPStream.intContent value)) = .ok value := by
  have fits : bytesRequired value ≤ type.maxSize :=
    (bytesRequired_le_iff value _).mpr holds
  have length : (RLPStream.intContent value).length = bytesRequired value := by
    simp [RLPStream.intContent]
  have limit : type.maxSize < readLimit := by
    rw [readLimit_eq]
    cases type <;> decide
  have small : (RLPStream.intContent value).length < readLimit := by omega
  have canonical : (RLPStream.intContent value).head? ≠ some 0 := by
    by_cases zero : value = 0
    · subst zero
      simp [RLPStream.intContent, toBigEndian]
    · obtain ⟨first, rest, split, nonzero⟩ :=
        toBigEndian_bytesRequired_cons (show 0 < value by omega)
      simp [RLPStream.intContent, split, nonzero]
  have isList : isList (encodeData (RLPStream.intContent value)) = false := by
    simpa using isList_encodeData [] small
  have notNull : isNull (encodeData (RLPStream.intContent value)) = false := by
    have positive := encodeData_pos (RLPStream.intContent value)
    simpa [isNull] using List.ne_nil_of_length_pos positive
  have notBig : ¬ type.maxSize < bytesRequired value := by omega
  have restored : fromBigEndianAs type (RLPStream.intContent value) =
      value := by
    rw [fromBigEndianAs_eq (by omega), RLPStream.intContent,
      fromBigEndian_toBigEndian (lt_pow_bytesRequired value)]
  simp [toInt, requireGood_encodeData small, isInt_encodeData small canonical,
    isList, notNull, payload_encodeData small, length, notBig, restored,
    Strictness.strict, bind, Except.bind, pure, Except.pure]

end RLP

namespace Script

/-- A script written to an empty stream closes all its lists and leaves the
canonical encoding. -/
theorem write_empty {script : Script}
    (small : script.item.encode.length < sizeTRange) :
    ∃ stream, script.write {} = .ok stream ∧
      stream.result = .ok script.item.encode :=
  ⟨⟨script.item.encode, []⟩, script.faithful small {}, rfl⟩

/-- A list is open as long as fewer items than announced have been written. -/
theorem appendList_writeAll_take {items : List Script} (stream : RLPStream)
    {count : Nat} (missing : count < items.length)
    (small : (encodeAll (itemAll items)).length < sizeTRange) :
    (do writeAll (items.take count) (← stream.appendList items.length)) =
      .ok
        { out := stream.out ++ encodeAll ((itemAll items).take count)
          listStack := (items.length - count, stream.out.length) ::
            stream.listStack } := by
  have opened : stream.appendList items.length =
      .ok ⟨stream.out, (items.length, stream.out.length) ::
        stream.listStack⟩ := by
    have nonempty : items.length ≠ 0 := by omega
    simp only [RLPStream.appendList, ne_eq, nonempty, not_false_eq_true,
      if_true]
  have prefixSmall : (encodeAll (itemAll (items.take count))).length <
      sizeTRange := by
    have whole : encodeAll (itemAll items) =
        encodeAll (itemAll (items.take count)) ++
          encodeAll (itemAll (items.drop count)) := by
      rw [← encodeAll_append, ← itemAll_append, List.take_append_drop]
    rw [whole, List.length_append] at small
    omega
  have counted : items.length =
      (items.take count).length + (items.length - count - 1) + 1 := by
    simp
    omega
  have written := writeAll_open stream.out (items.length - count - 1)
    stream.out.length stream.listStack
    (fun script _ => script.faithful) prefixSmall
  rw [← counted, itemAll_take,
    show items.length - count - 1 + 1 = items.length - count by omega]
    at written
  simp [opened, bind, Except.bind, written]

end Script

/-- Writing and reading are inverse.  Every tree of items, in any mixture of
the two ways to write a list, yields one canonical string, from which the
strict reader returns the tree; a list announced by its count stays open
until its last item, and then counts as one item of the list around it; a
non-negative integer is read back by every type that holds it. -/
theorem rlpStream_roundTrip :
    (∀ script : Script, script.item.encode.length < 2 ^ 56 →
      (∃ stream, script.write {} = .ok stream ∧
        stream.result = .ok script.item.encode) ∧
      RLP.read script.item.encode = .ok (some script.item)) ∧
    (∀ (items : List Script) (stream : RLPStream),
      (Script.counted items).item.encode.length < 2 ^ 56 →
      (Script.counted items).write stream =
        stream.appendRaw (Script.counted items).item.encode 1 ∧
      ∀ count, count < items.length →
        (do Script.writeAll (items.take count)
              (← stream.appendList items.length)) =
          .ok
            { out := stream.out ++
                encodeAll ((Script.itemAll items).take count)
              listStack := (items.length - count, stream.out.length) ::
                stream.listStack }) ∧
    (∀ (value : Nat) (type : RLP.IntType), value < 256 ^ type.maxSize →
      ∃ stream bytes, RLPStream.appendInt value {} = .ok stream ∧
        stream.result = .ok bytes ∧ RLP.toInt type bytes = .ok value) := by
  refine ⟨?_, ?_, ?_⟩
  · intro script small
    have readable : script.item.encode.length < RLP.readLimit := by
      rw [RLP.readLimit_eq]
      omega
    have written : script.item.encode.length < sizeTRange := by
      rw [sizeTRange_eq]
      omega
    exact ⟨Script.write_empty written,
      RLP.read_encode (RLP.readable_of_length readable)⟩
  · intro items stream small
    have written : (Script.counted items).item.encode.length < sizeTRange := by
      rw [sizeTRange_eq]
      omega
    refine ⟨(Script.counted items).faithful written stream, ?_⟩
    intro count missing
    exact Script.appendList_writeAll_take stream missing
      (Nat.lt_trans (length_lt_encodeList _) written)
  · intro value type holds
    have fits : bytesRequired value ≤ type.maxSize :=
      (bytesRequired_le_iff value _).mpr holds
    have limit : type.maxSize < 2 ^ 32 := by cases type <;> decide
    exact ⟨⟨encodeData (RLPStream.intContent value), []⟩, _,
      RLPStream.appendInt_eq {} (by omega), rfl, RLP.toInt_intContent holds⟩

/-- The list `[1, "dog"]`, its second list level written as a payload, and
the number 1024. -/
theorem rlpStream_roundTrip_dog :
    RLP.read (Script.encoded [.counted [.data [1]],
        .data [100, 111, 103]]).item.encode =
      .ok (some (.list [.list [.data [1]], .data [100, 111, 103]])) ∧
    ∃ stream bytes, RLPStream.appendInt 1024 {} = .ok stream ∧
      stream.result = .ok bytes ∧ RLP.toInt .u256 bytes = .ok 1024 :=
  ⟨(rlpStream_roundTrip.1 (.encoded [.counted [.data [1]],
      .data [100, 111, 103]]) (by decide)).2,
    rlpStream_roundTrip.2.2 1024 .u256 (by decide)⟩

/-- A negative `bigint` is not read back: `-1` is written as the byte
`0xff`, which no `toInt` accepts. -/
theorem rlpStream_roundTrip_negative :
    ¬ ∀ (value : Int) (type : RLP.IntType),
        value.natAbs < 256 ^ type.maxSize →
        ∃ stream bytes, RLPStream.appendInt value {} = .ok stream ∧
          stream.result = .ok bytes ∧
          (RLP.toInt type bytes).map Int.ofNat = .ok value := by
  intro every
  have large : (-1 : Int).natAbs < 256 ^ RLP.IntType.bigint.maxSize :=
    Nat.one_lt_pow (by decide) (by decide)
  obtain ⟨stream, bytes, written, output, read⟩ := every (-1) .bigint large
  have stream' : stream = ⟨[255], []⟩ := by
    have computed : RLPStream.appendInt (-1) {} = .ok ⟨[255], []⟩ := by decide
    rw [computed] at written
    exact (Except.ok.inj written).symm
  have bytes' : bytes = [255] := by
    rw [stream'] at output
    exact (Except.ok.inj output).symm
  have refused : RLP.toInt .bigint [255] = .error .badCast := by decide
  rw [bytes', refused] at read
  cases read

end Aecmio
