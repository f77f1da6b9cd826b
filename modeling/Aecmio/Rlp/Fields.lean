import Aecmio.Rlp.Parts

/-!
# Typed fields

The conversions `toHash` and `toInt` accept nothing but what the stream
writes for the same hash or number.  `toBytes` takes everything that is not a
string for the empty one.
-/

namespace Aecmio

open Item

/-- A computation that returns has taken its first step. -/
theorem exists_of_bind_ok {ε α β : Type} {first : Except ε α}
    {next : α → Except ε β} {result : β}
    (returned : (first >>= next) = .ok result) :
    ∃ value, first = .ok value ∧ next value = .ok result := by
  cases first with
  | error error => cases returned
  | ok value => exact ⟨value, rfl, returned⟩

theorem mapError_ok {ε ε' α : Type} {result : Except ε α} {wrap : ε → ε'}
    {value : α} (returned : result.mapError wrap = .ok value) :
    result = .ok value := by
  cases result with
  | error error => cases returned
  | ok other => exact congrArg Except.ok (Except.ok.inj returned)

/-- A computation that returns has passed its guard. -/
theorem guard_ok {ε α : Type} {condition : Prop} [Decidable condition]
    {error : ε} {next : PUnit → Except ε α} {value : α}
    (returned : (if condition then throw error >>= next else next ⟨⟩) =
      .ok value) : ¬ condition ∧ next ⟨⟩ = .ok value := by
  by_cases holds : condition
  · rw [if_pos holds] at returned
    cases returned
  · rw [if_neg holds] at returned
    exact ⟨holds, returned⟩

namespace RLP

/-- An item of a list that may be missing. -/
def MaybePart (view : Bytes) : Prop := view = [] ∨ Part view

theorem part_of_list {view : Bytes} (shape : MaybePart view)
    (isList : RLP.isList view = true) : Part view := by
  rcases shape with rfl | isPart
  · cases isList
  · exact isPart

/-- The payload of an item that is a list. -/
theorem payload_of_list {part : Bytes} (isPart : Part part)
    (isList : RLP.isList part = true) :
    ∃ content, part = encodeList content ∧ content.length < readLimit := by
  cases isPart with
  | @data content small =>
      have notList := isList_encodeData [] small
      rw [List.append_nil, isList] at notList
      cases notList
  | @list content small => exact ⟨content, rfl, small⟩

variable {view content : Bytes}

theorem nthPart_shape {position : Nat} {part : Bytes}
    (found : nthPart position content = .ok part) : MaybePart part := by
  obtain ⟨parts, rest, arePart, split, counted⟩ := nthPart_ok found
  rcases counted with exact_ | ⟨few, none⟩
  · have here := nthPart_parts arePart rest
      (show position < parts.length by omega)
    rw [← split, found] at here
    rw [Except.ok.inj here]
    exact .inr (arePart _ (List.getElem_mem _))
  · subst none
    rw [List.append_nil] at split
    have here := nthPart_beyond arePart few
    rw [← split, found] at here
    exact .inl (Except.ok.inj here)

/-- A payload whose first items are known. -/
theorem nthPart_split {fields : List Bytes} {content : Bytes}
    (areParts : ∀ field ∈ fields, Part field)
    (found : ∀ (position : Nat) (inRange : position < fields.length),
      nthPart position content = .ok fields[position]) :
    ∃ rest, content = fields.flatten ++ rest ∧
      ∀ position, nthPart (fields.length + position) content =
        nthPart position rest := by
  induction fields generalizing content with
  | nil => exact ⟨content, rfl, fun position => by rw [List.length_nil,
      Nat.zero_add]⟩
  | cons field others induction =>
      have first := found 0 (by simp)
      have isPart := areParts field List.mem_cons_self
      rw [List.getElem_cons_zero] at first
      have nonempty : content ≠ [] := by
        intro empty
        rw [empty, nthPart_nil] at first
        exact isPart.ne_nil (Except.ok.inj first).symm
      obtain ⟨size, sized, taken⟩ := exists_of_bind_ok first
      obtain ⟨part, rest, -, split, length⟩ := part_of_size nonempty sized
      have same : part = field := by
        rw [split, ← length, List.take_left] at taken
        exact Except.ok.inj taken
      subst same
      have positive := isPart.length_pos
      have onward : ∀ position, nthPart (position + 1) content =
          nthPart position rest := by
        intro position
        simp only [nthPart, sized, bind, Except.bind]
        rw [if_neg (by omega), split, ← length, List.drop_left]
      obtain ⟨rest', split', further⟩ := @induction rest
        (fun other member => areParts other (List.mem_cons_of_mem _ member))
        (fun position inRange => by
          rw [← onward, found (position + 1) (by simpa using inRange)]
          rfl)
      refine ⟨rest', ?_, ?_⟩
      · rw [split, split', List.flatten_cons, List.append_assoc]
      · intro position
        rw [← further, ← onward]
        congr 1
        rw [List.length_cons]
        omega

/-! ## Hashes -/

theorem toHash_hash {size : Nat} (hash : FixedHash size)
    (small : size < readLimit) :
    toHash size (encodeData hash.val) .veryStrict = .ok hash := by
  have length : hash.val.length = size := hash.property
  have limit : hash.val.length < readLimit := by omega
  have isData : isData (encodeData hash.val) = true := by
    simpa using isData_encodeData [] limit
  have taken : hash.val.take size = hash.val :=
    List.take_of_length_le (by omega)
  simp only [toHash, requireGood_encodeData limit, payload_encodeData limit,
    isData, Strictness.veryStrict, bind, Except.bind, pure, Except.pure,
    length]
  simp [taken, length]

theorem toHash_data {size : Nat} {hash : FixedHash size}
    (small : content.length < readLimit)
    (accepted : toHash size (encodeData content) .veryStrict = .ok hash) :
    content = hash.val := by
  have isData : isData (encodeData content) = true := by
    simpa using isData_encodeData [] small
  by_cases same : content.length = size
  · have whole := toHash_hash ⟨content, same⟩ (by omega)
    rw [accepted] at whole
    rw [Except.ok.inj whole]
  · have off : size < content.length ∨ content.length < size := by omega
    simp only [toHash, requireGood_encodeData small, payload_encodeData small,
      isData, Strictness.veryStrict, bind, Except.bind] at accepted
    rw [if_pos (by simpa using off)] at accepted
    cases accepted

theorem toHash_ok {size : Nat} {hash : FixedHash size}
    (shape : MaybePart view)
    (accepted : toHash size view .veryStrict = .ok hash) :
    view = encodeData hash.val := by
  rcases shape with rfl | ⟨small⟩ | ⟨small⟩
  · cases accepted
  · rw [toHash_data small accepted]
  · next content =>
      have notData : isData (encodeList content) = false := by
        simpa using isData_encodeList [] small
      cases good : requireGood (encodeList content) with
      | error error => simp [toHash, good, bind, Except.bind] at accepted
      | ok value =>
          simp [toHash, good, payload_encodeList small, notData,
            Strictness.veryStrict, bind, Except.bind, throw, throwThe,
            MonadExceptOf.throw] at accepted

/-! ## Numbers -/

/-- A leading zero fails the canonicity check of `toInt`. -/
theorem isInt_encodeData_zero (small : content.length < readLimit)
    (zero : content.head? = some 0) :
    isInt (encodeData content) = .ok false := by
  have good := requireGood_encodeData small
  obtain ⟨others, rfl⟩ : ∃ others, content = 0 :: others := by
    cases content with
    | nil => cases zero
    | cons lead others => exact ⟨others, by simpa using zero⟩
  unfold encodeData at good ⊢
  cases itself : standsForItself (0 :: others) with
  | true =>
      obtain rfl : others = [] := by
        cases others with
        | nil => rfl
        | cons _ _ => cases itself
      rfl
  | false =>
      simp only [itself, Bool.false_eq_true, if_false] at good ⊢
      have digits := bytesRequired_le_eight small
      unfold lengthPrefix at good ⊢
      by_cases short : (0 :: others).length < 56
      · simp only [if_pos short, List.cons_append, List.nil_append] at good ⊢
        have first := toNat_ofNat_of_lt
          (show 128 + (0 :: others).length < 256 by omega)
        have notSingle : ¬ 128 + (0 :: others).length < 128 := by omega
        have upper : 128 + (0 :: others).length ≤ 183 := by omega
        have notZero : 128 + (0 :: others).length ≠ 128 := by simp
        simp only [isInt, good, first, bind, Except.bind,
          rlpDataImmLenStart_eq, rlpDataIndLenZero_eq, if_neg notSingle,
          if_neg notZero, if_pos upper]
        rfl
      · simp only [if_neg short, List.cons_append] at good ⊢
        have first := toNat_ofNat_of_lt
          (show 128 + 55 + bytesRequired (0 :: others).length < 256 by omega)
        have count := bytesRequired_pos (show 0 < (0 :: others).length by simp)
        have skipped : 128 + 55 + bytesRequired (0 :: others).length - 183 =
            bytesRequired (0 :: others).length := by omega
        simp only [isInt, good, first, bind, Except.bind,
          rlpDataImmLenStart_eq, rlpDataIndLenZero_eq, rlpListStart_eq,
          skipped]
        rw [if_neg (by omega), if_neg (by omega), if_neg (by omega),
          if_pos (by omega), if_neg (by simp; omega)]
        simp [pure, Except.pure]

/-- A string without a leading zero is what stands for its number. -/
theorem intContent_fromBigEndian (canonical : content.head? ≠ some 0) :
    RLPStream.intContent (fromBigEndian content) = content := by
  cases content with
  | nil => rfl
  | cons first rest =>
      have nonzero : first ≠ 0 := by simpa using canonical
      rw [RLPStream.intContent, bytesRequired_fromBigEndian nonzero]
      exact toBigEndian_fromBigEndian (first :: rest)

theorem isInt_encodeList (small : content.length < readLimit) :
    isInt (encodeList content) = .ok false ∨
      ∃ error, isInt (encodeList content) = .error error := by
  obtain ⟨first, tail, split, high, -⟩ := encodeList_cons [] small
  rw [List.append_nil] at split
  rw [split]
  cases good : requireGood (first :: tail) with
  | error error => exact .inr ⟨error, by simp [isInt, good, bind, Except.bind]⟩
  | ok value =>
      left
      simp only [isInt, good, bind, Except.bind, rlpDataImmLenStart_eq,
        rlpDataIndLenZero_eq, rlpListStart_eq]
      rw [if_neg (by omega), if_neg (by omega), if_neg (by omega),
        if_neg (by omega)]
      rfl

theorem toInt_data {type : IntType} {value : Nat}
    (small : content.length < readLimit)
    (accepted : toInt type (encodeData content) = .ok value) :
    content = RLPStream.intContent value ∧ value < 256 ^ type.maxSize := by
  have isList : isList (encodeData content) = false := by
    simpa using isList_encodeData [] small
  have notNull : isNull (encodeData content) = false := by
    simpa [isNull] using List.ne_nil_of_length_pos (encodeData_pos content)
  by_cases zero : content.head? = some 0
  · simp [toInt, requireGood_encodeData small,
      isInt_encodeData_zero small zero, Strictness.strict, bind, Except.bind,
      throw, throwThe, MonadExceptOf.throw] at accepted
  · by_cases big : type.maxSize < content.length
    · simp [toInt, requireGood_encodeData small, isInt_encodeData small zero,
        isList, notNull, payload_encodeData small, big, Strictness.strict,
        bind, Except.bind, throw, throwThe, MonadExceptOf.throw] at accepted
    · have fits : content.length ≤ type.maxSize := Nat.le_of_not_lt big
      simp [toInt, requireGood_encodeData small, isInt_encodeData small zero,
        isList, notNull, payload_encodeData small, big, Strictness.strict,
        bind, Except.bind, pure, Except.pure, fromBigEndianAs_eq fits]
        at accepted
      rw [← accepted]
      refine ⟨(intContent_fromBigEndian zero).symm, ?_⟩
      exact Nat.lt_of_lt_of_le (fromBigEndian_lt content)
        (Nat.pow_le_pow_right (by decide) fits)

theorem toInt_ok {type : IntType} {value : Nat} (shape : MaybePart view)
    (accepted : toInt type view = .ok value) :
    view = encodeData (RLPStream.intContent value) ∧
      value < 256 ^ type.maxSize := by
  rcases shape with rfl | ⟨small⟩ | ⟨small⟩
  · cases accepted
  · obtain ⟨content, bound⟩ := toInt_data small accepted
    exact ⟨by rw [content], bound⟩
  · next content =>
      cases good : requireGood (encodeList content) with
      | error error => simp [toInt, good, bind, Except.bind] at accepted
      | ok done =>
          rcases isInt_encodeList small with no | ⟨error, no⟩
          · simp [toInt, good, no, Strictness.strict, bind, Except.bind,
              throw, throwThe, MonadExceptOf.throw] at accepted
          · simp [toInt, good, no, Strictness.strict, bind, Except.bind]
              at accepted

theorem toInt_word (word : BitVec 256) :
    toInt .u256 (encodeData (RLPStream.intContent word.toNat)) =
      .ok word.toNat :=
  toInt_intContent word.isLt

theorem toInt_word_ok {view : Bytes} {value : Nat} (shape : MaybePart view)
    (accepted : toInt .u256 view = .ok value) :
    view = encodeData
      (RLPStream.intContent (BitVec.ofNat 256 value).toNat) := by
  obtain ⟨written, bound⟩ := toInt_ok shape accepted
  have fits : value < 2 ^ 256 := bound
  rw [BitVec.toNat_ofNat, Nat.mod_eq_of_lt fits]
  exact written

/-! ## Strings -/

/-- What is no string is read as the empty one. -/
theorem toBytes_not_data (notData : isData view = false) :
    toBytes view = .ok [] := by
  simp [toBytes, notData, Strictness.laissezFaire]

theorem toBytes_ok {value : Bytes} (shape : MaybePart view)
    (accepted : toBytes view = .ok value) (isData : isData view = true) :
    view = encodeData value := by
  rcases shape with rfl | ⟨small⟩ | ⟨small⟩
  · cases isData
  · rw [toBytes_encodeData .laissezFaire small] at accepted
    rw [Except.ok.inj accepted]
  · have notData := isData_encodeList [] small
    rw [List.append_nil, isData] at notData
    cases notData

end RLP

namespace RLPStream

theorem bytesRequired_word (word : BitVec 256) :
    bytesRequired word.toNat < 2 ^ 32 := by
  have bound : bytesRequired word.toNat ≤ 32 := by
    rw [bytesRequired_le_iff]
    exact word.isLt
  omega

theorem bytesRequired_unsigned (value : Int) :
    bytesRequired (value % 2 ^ 32).toNat < 2 ^ 32 := by
  have bound : bytesRequired (value % 2 ^ 32).toNat ≤ 4 := by
    rw [bytesRequired_le_iff]
    omega
  omega

theorem append_hash {size : Nat} (hash : FixedHash size)
    (small : size < sizeTRange) (stream : RLPStream) :
    stream.append hash.val = stream.appendRaw (encodeData hash.val) 1 :=
  append_eq (by rw [hash.property]; exact small)

theorem appendInt_unsigned (value : Int) (stream : RLPStream) :
    stream.appendInt (value % 2 ^ 32) = stream.appendRaw
      (encodeData (intContent (value % 2 ^ 32).toNat)) 1 := by
  have natural : ((value % 2 ^ 32).toNat : Int) = value % 2 ^ 32 :=
    Int.toNat_of_nonneg (by omega)
  rw [← appendInt_eq stream (bytesRequired_unsigned value), natural]

/-- All the items of an open list but the last ones. -/
theorem appendRaw_some {parts : List Bytes} (out : Bytes) (missing start : Nat)
    (stack : List (Nat × Nat)) :
    parts.foldlM (fun stream part => stream.appendRaw part 1)
        (⟨out, (parts.length + missing + 1, start) :: stack⟩ : RLPStream) =
      .ok ⟨out ++ parts.flatten, (missing + 1, start) :: stack⟩ := by
  induction parts generalizing out with
  | nil => simp [pure, Except.pure]
  | cons part others induction =>
      have count : (part :: others).length + missing + 1 =
          (others.length + missing) + 2 := by
        rw [List.length_cons]
        omega
      rw [List.foldlM_cons, count, appendRaw_open]
      simp only [bind, Except.bind]
      rw [induction, List.flatten_cons, List.append_assoc]

/-- A list that is announced and filled with encoded items. -/
theorem appendList_parts {parts : List Bytes} (nonempty : parts ≠ [])
    (small : parts.flatten.length < sizeTRange) (stream : RLPStream) :
    (do
      let stream ← stream.appendList parts.length
      parts.foldlM (fun stream part => stream.appendRaw part 1) stream) =
      stream.appendRaw (encodeList parts.flatten) 1 := by
  obtain ⟨front, last, rfl⟩ : ∃ front last, parts = front ++ [last] :=
    ⟨parts.dropLast, parts.getLast nonempty,
      (List.dropLast_append_getLast nonempty).symm⟩
  have some_ : (front ++ [last]).length ≠ 0 := by simp
  have count : (front ++ [last]).length = front.length + 0 + 1 := by simp
  rw [appendList, if_pos some_, count]
  have filled := @appendRaw_some front stream.out 0 stream.out.length
    stream.listStack
  simp only [bind, Except.bind]
  rw [List.foldlM_append, filled]
  simp only [bind, Except.bind, List.foldlM_cons, List.foldlM_nil]
  have whole : front.flatten ++ last = (front ++ [last]).flatten := by simp
  have closed := @appendRaw_last stream.out front.flatten last
    stream.listStack (by rw [whole]; exact small)
  rw [Nat.zero_add, closed, whole]
  cases appendRaw (encodeList (front ++ [last]).flatten) 1
    ⟨stream.out, stream.listStack⟩ <;> rfl

end RLPStream

end Aecmio
