import Aecmio.Rlp.Framing

/-!
# Reading a canonical encoding

Each reader method is evaluated on the canonical encoding of an item below
the reader's size limit: classification by the first byte, the number of
items of a list, indexing, iteration, conversions, and finally the complete
walk, which returns the item itself.
-/

namespace Aecmio

namespace RLP

open Item

/-! ## First bytes -/

theorem lengthPrefix_cons {start size : Nat} (family : start ≤ 192)
    (small : size < readLimit) :
    ∃ first tail, lengthPrefix start size = first :: tail ∧
      start ≤ first.toNat ∧ first.toNat < start + 64 ∧
      (first.toNat = start ↔ size = 0) := by
  have digits := bytesRequired_le_eight small
  unfold lengthPrefix
  split
  · have value := toNat_ofNat_of_lt (show start + size < 256 by omega)
    exact ⟨_, [], rfl, by omega, by omega, by omega⟩
  · have value := toNat_ofNat_of_lt
      (show start + 55 + bytesRequired size < 256 by omega)
    exact ⟨_, _, rfl, by omega, by omega, by omega⟩

theorem encodeData_cons {content : Bytes} (rest : Bytes)
    (small : content.length < readLimit) :
    ∃ first tail, encodeData content ++ rest = first :: tail ∧
      first.toNat < 192 ∧ (first.toNat = 128 ↔ content = []) := by
  unfold encodeData
  cases itself : standsForItself content with
  | true =>
      match content, itself with
      | [byte], itself =>
          have low : byte.toNat < 128 := by simpa [standsForItself] using itself
          exact ⟨byte, rest, rfl, by omega, by simp; omega⟩
  | false =>
      obtain ⟨first, tail, split, _, upper, empty⟩ :=
        lengthPrefix_cons (show 128 ≤ 192 by omega) small
      refine ⟨first, tail ++ content ++ rest, by simp [split], by omega, ?_⟩
      simpa using empty

theorem encodeList_cons {payload : Bytes} (rest : Bytes)
    (small : payload.length < readLimit) :
    ∃ first tail, encodeList payload ++ rest = first :: tail ∧
      192 ≤ first.toNat ∧ (first.toNat = 192 ↔ payload = []) := by
  obtain ⟨first, tail, split, lower, _, empty⟩ :=
    lengthPrefix_cons (Nat.le_refl 192) small
  refine ⟨first, tail ++ payload ++ rest, by simp [encodeList, split],
    lower, ?_⟩
  simpa using empty

variable {content payload : Bytes} {items : List Item}

theorem isData_encodeData (rest : Bytes)
    (small : content.length < readLimit) :
    isData (encodeData content ++ rest) = true := by
  obtain ⟨first, tail, split, upper, _⟩ := encodeData_cons rest small
  simp [split, isData, upper]

theorem isList_encodeData (rest : Bytes)
    (small : content.length < readLimit) :
    isList (encodeData content ++ rest) = false := by
  obtain ⟨first, tail, split, upper, _⟩ := encodeData_cons rest small
  simp [split, isList, upper]

theorem isEmpty_encodeData (rest : Bytes)
    (small : content.length < readLimit) :
    isEmpty (encodeData content ++ rest) = content.isEmpty := by
  obtain ⟨first, tail, split, upper, empty⟩ := encodeData_cons rest small
  have notList : first.toNat ≠ 192 := by omega
  rw [Bool.eq_iff_iff]
  simp [split, isEmpty, notList, empty]

theorem isList_encodeList (rest : Bytes)
    (small : payload.length < readLimit) :
    isList (encodeList payload ++ rest) = true := by
  obtain ⟨first, tail, split, lower, _⟩ := encodeList_cons rest small
  simp [split, isList, lower]

theorem isData_encodeList (rest : Bytes)
    (small : payload.length < readLimit) :
    isData (encodeList payload ++ rest) = false := by
  obtain ⟨first, tail, split, lower, _⟩ := encodeList_cons rest small
  simp [split, isData, lower]

theorem isEmpty_encodeList (rest : Bytes)
    (small : payload.length < readLimit) :
    isEmpty (encodeList payload ++ rest) = payload.isEmpty := by
  obtain ⟨first, tail, split, lower, empty⟩ := encodeList_cons rest small
  have notData : first.toNat ≠ 128 := by omega
  rw [Bool.eq_iff_iff]
  simp [split, isEmpty, notData, empty]

/-! ## The size of an item -/

/-- The payload of the item is below the reader's limit. -/
def Readable : Item → Prop
  | .data content => content.length < readLimit
  | .list items => (encodeAll items).length < readLimit

theorem readable_of_length {item : Item}
    (small : item.encode.length < readLimit) : Readable item := by
  cases item with
  | data content =>
      exact Nat.lt_of_le_of_lt (length_le_encodeData content) small
  | list items =>
      exact Nat.lt_trans (length_lt_encodeList (encodeAll items)) small

theorem readable_of_mem {item : Item} (member : item ∈ items)
    (small : (encodeAll items).length < readLimit) : Readable item :=
  readable_of_length
    (Nat.lt_of_le_of_lt (encode_length_le_encodeAll member) small)

theorem framed_encode {item : Item} (rest : Bytes)
    (small : Readable item) :
    ∃ header content, Framed (item.encode ++ rest) header content rest ∧
      header.length + content.length = item.encode.length := by
  cases item with
  | data content =>
      refine ⟨dataHeader content, content, framed_encodeData rest small, ?_⟩
      simp [encode, encodeData_eq_append]
  | list items =>
      refine ⟨listHeader (encodeAll items), encodeAll items,
        framed_encodeList rest small, ?_⟩
      simp [encode, encodeList_eq_append]

theorem sizeAsEncoded_encode_append {item : Item} (rest : Bytes)
    (small : Readable item) :
    sizeAsEncoded (item.encode ++ rest) = .ok item.encode.length := by
  obtain ⟨header, content, framed, total⟩ := framed_encode rest small
  rw [framed.sizeAsEncoded, total]

theorem construct_encode_append {item : Item} (rest : Bytes)
    (small : Readable item) :
    construct (item.encode ++ rest) .throwIfTooSmall =
      .ok (item.encode ++ rest) := by
  obtain ⟨header, content, framed, _⟩ := framed_encode rest small
  exact framed.construct_throwIfTooSmall

theorem construct_encode {item : Item}
    (small : Readable item) :
    construct item.encode .veryStrict = .ok item.encode := by
  obtain ⟨header, content, framed, _⟩ := framed_encode [] small
  simpa using framed.construct_veryStrict

theorem payload_encodeData (small : content.length < readLimit) :
    RLP.payload (encodeData content) = .ok content := by
  have framed := framed_encodeData [] small
  rw [List.append_nil] at framed
  apply framed.payload
  have bound := framed.small
  have length := framed.length_eq
  simp at length
  omega

theorem encodeList_bounded (small : payload.length < readLimit) :
    (encodeList payload).length < sizeTRange - 1 := by
  have framed := framed_encodeList [] small
  rw [List.append_nil] at framed
  have bound := framed.small
  have length := framed.length_eq
  simp at length
  omega

theorem payloadRef_encodeList (small : payload.length < readLimit) :
    payloadRef (encodeList payload) =
      .ok ⟨some (listHeader payload).length, payload.length⟩ := by
  have framed := framed_encodeList [] small
  rw [List.append_nil] at framed
  exact framed.payloadRef (encodeList_bounded small)

theorem payload_encodeList (small : payload.length < readLimit) :
    RLP.payload (encodeList payload) = .ok payload := by
  have framed := framed_encodeList [] small
  rw [List.append_nil] at framed
  exact framed.payload (encodeList_bounded small)

theorem length_encodeData (small : content.length < readLimit) :
    RLP.length (encodeData content) = .ok content.length := by
  have framed := framed_encodeData [] small
  rw [List.append_nil] at framed
  exact framed.length

theorem requireGood_encodeData (small : content.length < readLimit) :
    requireGood (encodeData content) = .ok () := by
  have accepted := length_encodeData small
  obtain ⟨first, tail, split, _⟩ := encodeData_cons [] small
  rw [List.append_nil] at split
  rw [split] at accepted ⊢
  exact requireGood_of_length accepted

/-! ## Counting and indexing -/

theorem head_small {item : Item}
    (small : (encodeAll (item :: items)).length < readLimit) :
    Readable item ∧ (encodeAll items).length < readLimit := by
  refine ⟨readable_of_mem (by simp) small, ?_⟩
  simp [encodeAll] at small
  omega

theorem itemsLoop_encodeAll (fuel : Nat)
    (enough : (encodeAll items).length ≤ fuel)
    (small : (encodeAll items).length < readLimit) :
    itemsLoop fuel (encodeAll items) = .ok items.length := by
  induction items generalizing fuel with
  | nil => cases fuel <;> rfl
  | cons item items induction =>
      obtain ⟨headSmall, tailSmall⟩ := head_small small
      have positive := encode_pos item
      obtain ⟨first, tail, split⟩ :=
        List.exists_cons_of_length_pos positive
      have view : encodeAll (item :: items) =
          first :: (tail ++ encodeAll items) := by
        simp [encodeAll, split]
      have size : sizeAsEncoded (first :: (tail ++ encodeAll items)) =
          .ok item.encode.length := by
        rw [← view]
        exact sizeAsEncoded_encode_append _ headSmall
      have rest : croppedFrom (first :: (tail ++ encodeAll items))
          item.encode.length = encodeAll items := by
        rw [← view, croppedFrom_eq (by simp [encodeAll])]
        simp [encodeAll]
      have total : (encodeAll (item :: items)).length =
          item.encode.length + (encodeAll items).length := by
        simp [encodeAll]
      obtain ⟨fuel, rfl⟩ : ∃ less, fuel = less + 1 :=
        ⟨fuel - 1, by omega⟩
      have small := induction fuel (by omega) tailSmall
      simp [view, itemsLoop, size, rest, small, bind, Except.bind, pure,
        Except.pure]

theorem itemCount_encode_list
    (small : (encodeAll items).length < readLimit) :
    itemCount (Item.list items).encode = .ok items.length := by
  have isList : isList (encodeList (encodeAll items)) = true := by
    simpa using isList_encodeList [] small
  simp [itemCount, RLP.items, encode, isList, payload_encodeList small,
    bind, Except.bind, itemsLoop_encodeAll _ (Nat.le_refl _) small]

/-- The cache after indexing the `position`-th item of a list. -/
def cacheAt (before : List Item) (item : Item) : IndexCache :=
  { lastIndex := before.length
    lastEnd := (encodeAll (before ++ [item])).length
    lastItem := item.encode }

theorem advance_one {before after : List Item} {item next : Item}
    (listed : items = before ++ item :: next :: after)
    (small : (encodeAll items).length < readLimit) (rounds : Nat) :
    (advance (Item.list items).encode (rounds + 1)).run
        (cacheAt before item) =
      (advance (Item.list items).encode rounds).run
        (cacheAt (before ++ [item]) next) := by
  have bounded := encodeList_bounded small
  have whole : encodeAll items = encodeAll (before ++ [item]) ++
      (next.encode ++ encodeAll after) := by
    rw [listed]
    simp [encodeAll_append, encodeAll]
  have nextMember : next ∈ items := by simp [listed]
  have nextSmall := readable_of_mem nextMember small
  have nonempty : item.encode.isEmpty = false := by simp
  have content : RLP.payload (Item.list items).encode =
      .ok (encodeAll items) := payload_encodeList small
  have remaining : croppedFrom (encodeAll items)
      (encodeAll (before ++ [item])).length =
        next.encode ++ encodeAll after := by
    rw [croppedFrom_eq (by simp [whole]), whole, List.drop_left]
  have size := sizeAsEncoded_encode_append (encodeAll after) nextSmall
  have taken : cropped (next.encode ++ encodeAll after) 0
      next.encode.length = next.encode := by
    rw [cropped_eq ?_ (by simp)]
    · simp
    · have total := congrArg List.length whole
      simp at total ⊢
      rw [sizeTRange_eq]
      rw [readLimit_eq] at small
      omega
  simp only [advance, cacheAt, EStateM.run_bind, EStateM.run_get, nonempty,
    content, lift, EStateM.run_pure, EStateM.run_modify, remaining, size,
    taken, Bool.false_eq_true, if_false]
  simp [encodeAll_append, encodeAll, Nat.add_assoc]

theorem advance_many {before after : List Item} {item : Item}
    (middle : List Item) {last : Item}
    (listed : items = before ++ item :: (middle ++ last :: after))
    (small : (encodeAll items).length < readLimit) :
    (advance (Item.list items).encode (middle.length + 1)).run
        (cacheAt before item) =
      .ok () (cacheAt (before ++ item :: middle) last) := by
  induction middle generalizing before item with
  | nil =>
      rw [List.length_nil, advance_one (by simpa using listed) small]
      simp [advance, EStateM.run_pure]
  | cons next middle induction =>
      have unfolded : items = before ++ item :: next ::
          (middle ++ last :: after) := by simpa using listed
      rw [List.length_cons, advance_one unfolded small,
        induction (by simpa using listed)]
      simp

/-- The first access to a list resets the cache to its first item. -/
theorem index_reset {first : Item} (others : List Item) {position : Nat}
    (small : (encodeAll (first :: others)).length < readLimit)
    (inRange : position < sizeTRange - 1) :
    (index (Item.list (first :: others)).encode position).run {} =
      (do
        advance (Item.list (first :: others)).encode position
        lift (construct (← get).lastItem .throwIfTooSmall) :
          Indexing Bytes).run (cacheAt [] first) := by
  obtain ⟨headSmall, _⟩ := head_small small
  have content : RLP.payload (Item.list (first :: others)).encode =
      .ok (encodeAll (first :: others)) := payload_encodeList small
  have size : sizeAsEncoded (encodeAll (first :: others)) =
      .ok first.encode.length :=
    sizeAsEncoded_encode_append (encodeAll others) headSmall
  have taken : cropped (encodeAll (first :: others)) 0 first.encode.length =
      first.encode := by
    rw [cropped_eq ?_ (by simp [encodeAll])]
    · simp [encodeAll]
    · rw [sizeTRange_eq]
      rw [readLimit_eq] at small
      omega
  simp only [index, EStateM.run_bind, EStateM.run_get, inRange, if_true,
    content, lift, EStateM.run_pure, size, EStateM.run_modify, taken]
  simp [cacheAt, encodeAll]

theorem index_encode_list {before after : List Item} {item : Item}
    (listed : items = before ++ item :: after)
    (small : (encodeAll items).length < readLimit)
    (inRange : before.length < sizeTRange - 1) :
    (index (Item.list items).encode before.length).run {} =
      .ok item.encode (cacheAt before item) := by
  have member : item ∈ items := by simp [listed]
  have itemSmall := readable_of_mem member small
  have final : construct item.encode .throwIfTooSmall = .ok item.encode := by
    simpa using construct_encode_append [] itemSmall
  cases before with
  | nil =>
      rw [List.nil_append] at listed
      subst listed
      rw [index_reset after small inRange]
      simp [advance, cacheAt, lift, final, EStateM.run_bind]
  | cons first middle =>
      have moved : (advance (Item.list items).encode (middle.length + 1)).run
          (cacheAt [] first) = .ok () (cacheAt ([] ++ first :: middle) item) :=
        advance_many middle (by simpa using listed) small
      rw [List.cons_append] at listed
      subst listed
      rw [index_reset _ small inRange]
      simp only [EStateM.run_bind, List.length_cons, moved]
      simp [cacheAt, lift, final]

/-- `operator[]` on a canonical list returns the encoding of the item. -/
theorem at_encode_list {position : Nat} (inRange : position < items.length)
    (small : (encodeAll items).length < readLimit) :
    at_ (Item.list items).encode position = .ok items[position].encode := by
  have listed : items = items.take position ++ items[position] ::
      items.drop (position + 1) := by simp
  have length : (items.take position).length = position := by
    simp
    omega
  have counted := length_le_encodeAll items
  have bounded : (items.take position).length < sizeTRange - 1 := by
    rw [length, sizeTRange_eq]
    rw [readLimit_eq] at small
    omega
  have run := index_encode_list listed small bounded
  rw [length] at run
  rw [at_, run]

/-! ## Iteration -/

/-- The iterator at `item`, with `before` behind it and `after` ahead. -/
def positionAt (items before : List Item) (item : Item) (after : List Item) :
    Iterator :=
  ⟨(encodeAll after).length,
    ⟨some ((listHeader (encodeAll items)).length +
      (encodeAll before).length), item.encode.length⟩⟩

theorem end_encode_list (items : List Item) :
    (end_ (Item.list items).encode).currentItem =
      ⟨some ((listHeader (encodeAll items)).length +
        (encodeAll items).length), 0⟩ := by
  simp [end_, VectorRef.whole, VectorRef.croppedFrom, encode,
    encodeList_eq_append]

/-- The bytes of a list from one of its items on. -/
theorem drop_encode_list {before after : List Item}
    (listed : items = before ++ after) :
    (Item.list items).encode.drop
        ((listHeader (encodeAll items)).length + (encodeAll before).length) =
      encodeAll after := by
  rw [encode, encodeList_eq_append, ← List.drop_drop, List.drop_left]
  simp [listed, encodeAll_append]

theorem cropped_head {start total size : Nat} (inside : size ≤ total)
    (bounded : total < sizeTRange - 1) :
    VectorRef.cropped ⟨some start, total⟩ 0 size = ⟨some start, size⟩ := by
  have sum : size % sizeTRange = size := Nat.mod_eq_of_lt (by omega)
  have ordinary : size ≠ sizeTRange - 1 := by omega
  simp [VectorRef.cropped, sum, inside, ordinary]

theorem dereference_positionAt {before after : List Item} {item : Item}
    (listed : items = before ++ item :: after)
    (small : (encodeAll items).length < readLimit) :
    (positionAt items before item after).dereference
        (Item.list items).encode = .ok item.encode := by
  have member : item ∈ items := by simp [listed]
  have itemSmall := readable_of_mem member small
  have viewed : (positionAt items before item after).currentItem.contents
      (Item.list items).encode = item.encode := by
    simp only [positionAt, VectorRef.contents, drop_encode_list listed]
    simp [encodeAll]
  rw [Iterator.dereference, viewed, construct_encode itemSmall]

theorem increment_positionAt {before after : List Item} {item next : Item}
    (listed : items = before ++ item :: next :: after)
    (small : (encodeAll items).length < readLimit) :
    (positionAt items before item (next :: after)).increment
        (Item.list items).encode =
      .ok (positionAt items (before ++ [item]) next after) := by
  have member : next ∈ items := by simp [listed]
  have nextSmall := readable_of_mem member small
  have positive := encode_pos next
  have remaining : (encodeAll (next :: after)).length ≠ 0 := by
    simp [encodeAll]
  have position : (listHeader (encodeAll items)).length +
      (encodeAll before).length + item.encode.length =
        (listHeader (encodeAll items)).length +
          (encodeAll (before ++ [item])).length := by
    simp [encodeAll_append, encodeAll, Nat.add_assoc]
  have viewed : ((Item.list items).encode.drop
      ((listHeader (encodeAll items)).length +
        (encodeAll (before ++ [item])).length)).take
          (encodeAll (next :: after)).length = encodeAll (next :: after) := by
    rw [drop_encode_list (by simpa using listed), List.take_length]
  have size : sizeAsEncoded (encodeAll (next :: after)) =
      .ok next.encode.length :=
    sizeAsEncoded_encode_append (encodeAll after) nextSmall
  have bounded : (encodeAll (next :: after)).length < sizeTRange - 1 := by
    have total : (encodeAll items).length = (encodeAll before).length +
        (item.encode.length + (encodeAll (next :: after)).length) := by
      simp [listed, encodeAll_append, encodeAll]
    rw [sizeTRange_eq]
    rw [readLimit_eq] at small
    omega
  have inside : next.encode.length ≤ (encodeAll (next :: after)).length := by
    simp [encodeAll]
  have rest : (encodeAll (next :: after)).length -
      min (encodeAll (next :: after)).length next.encode.length =
        (encodeAll after).length := by
    rw [Nat.min_eq_right inside]
    simp [encodeAll]
  simp only [Iterator.increment, positionAt, VectorRef.next, ne_eq, remaining,
    not_false_eq_true, if_true, VectorRef.contents, position, viewed, size,
    bind, Except.bind, pure, Except.pure, cropped_head inside bounded, rest]

theorem increment_last {before : List Item} {item : Item}
    (listed : items = before ++ [item]) :
    (positionAt items before item []).increment (Item.list items).encode =
      .ok ⟨0, (end_ (Item.list items).encode).currentItem⟩ := by
  rw [end_encode_list]
  simp [Iterator.increment, positionAt, VectorRef.next, encodeAll, listed,
    encodeAll_append, pure, Except.pure, Nat.add_assoc]

theorem iterate_of_begin {view : Bytes} {position : Iterator}
    (start : begin_ view = .ok position) :
    iterate view = iterateFrom view (view.length + 1) position := by
  simp [iterate, start, bind, Except.bind]

theorem iterateFrom_end (view : Bytes) (fuel remaining : Nat) :
    iterateFrom view (fuel + 1) ⟨remaining, (end_ view).currentItem⟩ =
      .ok [] := by
  simp [iterateFrom]

theorem iterateFrom_positionAt {before after : List Item} {item : Item}
    (listed : items = before ++ item :: after)
    (small : (encodeAll items).length < readLimit) {fuel : Nat}
    (enough : after.length + 2 ≤ fuel) :
    iterateFrom (Item.list items).encode fuel
        (positionAt items before item after) =
      .ok ((item :: after).map encode) := by
  induction after generalizing before item fuel with
  | nil =>
      obtain ⟨fuel, rfl⟩ : ∃ less, fuel = less + 2 :=
        ⟨fuel - 2, by omega⟩
      have different : (positionAt items before item []).currentItem ≠
          (end_ (Item.list items).encode).currentItem := by
        simp [end_encode_list, positionAt]
      simp [iterateFrom, different, dereference_positionAt listed small,
        increment_last listed, bind, Except.bind, pure, Except.pure]
  | cons next after induction =>
      obtain ⟨fuel, rfl⟩ : ∃ less, fuel = less + 1 :=
        ⟨fuel - 1, by omega⟩
      have different : (positionAt items before item
          (next :: after)).currentItem ≠
          (end_ (Item.list items).encode).currentItem := by
        simp [end_encode_list, positionAt]
      have shifted : items = (before ++ [item]) ++ next :: after := by
        simpa using listed
      have less : after.length + 2 ≤ fuel := by simpa using enough
      have tail := induction shifted less
      simp [iterateFrom, different, dereference_positionAt listed small,
        increment_positionAt listed small, tail, bind, Except.bind, pure,
        Except.pure]

/-- A range loop over a canonical list visits exactly its items. -/
theorem iterate_encode_list
    (small : (encodeAll items).length < readLimit) :
    iterate (Item.list items).encode = .ok (items.map encode) := by
  have bounded := encodeList_bounded small
  have isList : isList (encodeList (encodeAll items)) = true := by
    simpa using isList_encodeList [] small
  have content : payloadRef (Item.list items).encode =
      .ok ⟨some (listHeader (encodeAll items)).length,
        (encodeAll items).length⟩ := payloadRef_encodeList small
  have viewed : ((Item.list items).encode.drop
      (listHeader (encodeAll items)).length).take (encodeAll items).length =
        encodeAll items := by
    have whole := drop_encode_list (List.nil_append items).symm
    simp only [encodeAll, List.length_nil, Nat.add_zero] at whole
    rw [whole, List.take_length]
  cases items with
  | nil =>
      have start : begin_ (Item.list []).encode =
          .ok ⟨0, (end_ (Item.list []).encode).currentItem⟩ := by
        decide
      rw [iterate_of_begin start]
      exact iterateFrom_end _ _ _
  | cons first others =>
      have headSmall := (head_small small).1
      have size : sizeAsEncoded (encodeAll (first :: others)) =
          .ok first.encode.length :=
        sizeAsEncoded_encode_append (encodeAll others) headSmall
      have inside : first.encode.length ≤
          (encodeAll (first :: others)).length := by simp [encodeAll]
      have innerBounded : (encodeAll (first :: others)).length <
          sizeTRange - 1 := by
        rw [sizeTRange_eq]
        rw [readLimit_eq] at small
        omega
      have start : begin_ (Item.list (first :: others)).encode =
          .ok (positionAt (first :: others) [] first others) := by
        simp only [begin_, encode, isList, if_true]
        rw [← encode, content]
        simp only [bind, Except.bind, VectorRef.contents, viewed, size, pure,
          Except.pure, cropped_head inside innerBounded]
        simp [positionAt, encodeAll]
      have counted := length_le_encodeAll (first :: others)
      have longer := length_lt_encodeList (encodeAll (first :: others))
      have enough : others.length + 2 ≤
          (Item.list (first :: others)).encode.length + 1 := by
        simp only [List.length_cons] at counted
        simp only [encode]
        omega
      rw [iterate_of_begin start]
      exact iterateFrom_positionAt (List.nil_append _).symm small enough

/-! ## Conversions -/

theorem toBytes_encodeData (flags : Strictness)
    (small : content.length < readLimit) :
    toBytes (encodeData content) flags = .ok content := by
  have isData : isData (encodeData content) = true := by
    simpa using isData_encodeData [] small
  simp [toBytes, isData, payload_encodeData small, length_encodeData small,
    bind, Except.bind, pure, Except.pure]

theorem toString_encodeData (flags : Strictness)
    (small : content.length < readLimit) :
    toString (encodeData content) flags = .ok content := by
  have isData : isData (encodeData content) = true := by
    simpa using isData_encodeData [] small
  have whole : cropped content 0 content.length = content := by
    rw [cropped_eq ?_ (by simp)]
    · simp
    · rw [sizeTRange_eq]
      rw [readLimit_eq] at small
      omega
  simp [toString, isData, payload_encodeData small, length_encodeData small,
    bind, Except.bind, pure, Except.pure, whole]

/-- A string of at most `size` bytes is read as a hash padded on the left. -/
theorem toHash_encodeData {size : Nat} (short : content.length ≤ size)
    (small : content.length < readLimit) :
    toHash size (encodeData content) =
      .ok ⟨List.replicate (size - content.length) 0 ++ content, by
        simp
        omega⟩ := by
  have isData : isData (encodeData content) = true := by
    simpa using isData_encodeData [] small
  have notLong : ¬ size < content.length := by omega
  simp [toHash, requireGood_encodeData small, payload_encodeData small, isData,
    notLong, Strictness.strict, bind, Except.bind, pure, Except.pure,
    List.take_of_length_le short]

theorem toHash_encodeData_of_long {size : Nat} (long : size < content.length)
    (small : content.length < readLimit) :
    toHash size (encodeData content) = .error .badCast := by
  have isData : isData (encodeData content) = true := by
    simpa using isData_encodeData [] small
  simp [toHash, requireGood_encodeData small, payload_encodeData small, isData,
    long, Strictness.strict, bind, Except.bind, throw, throwThe,
    MonadExceptOf.throw]

theorem toHash_encodeData_hash {size : Nat} (hash : FixedHash size)
    (small : size < readLimit) :
    toHash size (encodeData hash.val) = .ok hash := by
  have length : hash.val.length = size := hash.property
  rw [toHash_encodeData (by omega) (by omega)]
  congr
  simp [length]

/-! ## The complete walk -/

theorem mapM_encode {fuel : Nat} (items : List Item)
    (each : ∀ item ∈ items, readItem fuel item.encode = .ok (some item)) :
    (items.map encode).mapM (readItem fuel) = .ok (items.map some) := by
  induction items with
  | nil => rfl
  | cons item items induction =>
      have head := each item (by simp)
      have tail := induction (fun other member =>
        each other (by simp [member]))
      simp [List.mapM_cons, head, tail, bind, Except.bind, pure, Except.pure]

theorem readItem_encode (item : Item) {fuel : Nat}
    (small : Readable item)
    (enough : item.encode.length < fuel) :
    readItem fuel item.encode = .ok (some item) := by
  induction item using Item.induction generalizing fuel with
  | data content =>
      obtain ⟨fuel, rfl⟩ : ∃ less, fuel = less + 1 :=
        ⟨fuel - 1, by omega⟩
      have isList : isList (Item.data content).encode = false := by
        simpa [encode] using isList_encodeData [] small
      have isData : isData (Item.data content).encode = true := by
        simpa [encode] using isData_encodeData [] small
      have read : toBytes (Item.data content).encode = .ok content :=
        toBytes_encodeData .laissezFaire small
      simp [readItem, construct_encode small, isList, isData, read, bind,
        Except.bind, pure, Except.pure]
  | list items induction =>
      obtain ⟨fuel, rfl⟩ : ∃ less, fuel = less + 1 :=
        ⟨fuel - 1, by omega⟩
      have isList : isList (Item.list items).encode = true := by
        simpa [encode] using isList_encodeList [] small
      have each : ∀ item ∈ items,
          readItem fuel item.encode = .ok (some item) := by
        intro item member
        have shorter := encode_length_lt_of_mem member
        exact induction item member (readable_of_mem member small) (by omega)
      simp [readItem, construct_encode small, isList,
        iterate_encode_list small, mapM_encode items each, bind, Except.bind,
        pure, Except.pure]

/-- Reading a canonical encoding returns the item it encodes. -/
theorem read_encode {item : Item} (small : Readable item) :
    read item.encode = .ok (some item) :=
  readItem_encode item small (Nat.lt_succ_self _)

end RLP

end Aecmio
