import Aecmio.Rlp.RoundTrip

/-!
# What the strict reader accepts is canonical

The complete walk of a byte string succeeds only on the canonical encoding of
the item it returns.  Each level is analysed from the accepted results: the
constructor pins the whole string to one prefix and payload, and the iterator
cuts a payload into nonempty pieces that add up to it.
-/

namespace Aecmio

open Item

namespace RLP

/-! ## Accepted sizes -/

/-- No length arithmetic wraps: an accepted length leaves room for its
prefix below `2^64`. -/
theorem payloadOffset_add_length_lt {view : Bytes} {size : Nat}
    (accepted : RLP.length view = .ok size) :
    payloadOffset view + size < sizeTRange := by
  rw [sizeTRange_eq]
  cases view with
  | nil =>
      have zero : size = 0 := (Except.ok.inj accepted).symm
      simp [payloadOffset, isSingleByte, lengthSize, zero]
  | cons first tail =>
      have byte := first.toNat_lt
      have good := requireGood_of_length accepted
      simp only [RLP.length, good, bind, Except.bind] at accepted
      have offset : payloadOffset (first :: tail) ≤ 9 := by
        by_cases single : first.toNat < 128
        · simp [payloadOffset, isSingleByte, single]
        · by_cases data : first.toNat < 192
          · simp [payloadOffset, isSingleByte, lengthSize, single, data]
            omega
          · simp [payloadOffset, isSingleByte, lengthSize, single, data]
            omega
      split at accepted
      · have one := Except.ok.inj accepted
        omega
      · split at accepted
        · have short := Except.ok.inj accepted
          omega
        · split at accepted
          · obtain ⟨_, _, small, _⟩ :=
              longLength_ok (by simp at *; omega) accepted
            rw [readLimit_eq] at small
            omega
          · split at accepted
            · have short := Except.ok.inj accepted
              omega
            · obtain ⟨_, _, small, _⟩ :=
                longLength_ok (by simp at *; omega) accepted
              rw [readLimit_eq] at small
              omega

/-- A length given in bytes of its own is not below 56, and its first byte
is not zero. -/
theorem lengthBytes_of_length {view : Bytes} {size : Nat}
    (accepted : RLP.length view = .ok size) (long : 0 < lengthSize view) :
    (view.drop 1).head? ≠ some 0 ∧
      56 ≤ fromBigEndian ((view.drop 1).take (lengthSize view)) := by
  have inner : ∀ {width : Nat}, 0 < width →
      longLength view width 56 = .ok size →
      (view.drop 1).head? ≠ some 0 ∧
        56 ≤ fromBigEndian ((view.drop 1).take width) := by
    intro width positive found
    obtain ⟨minimal, large, _, _, bytes⟩ := longLength_ok positive found
    refine ⟨?_, ?_⟩
    · intro zero
      unfold longLength at found
      split at found
      · cases found
      · simp [zero] at found
    · rw [bytes, minimal, fromBigEndian_toBigEndian (lt_pow_bytesRequired size)]
      exact large
  cases view with
  | nil => simp [lengthSize] at long
  | cons first tail =>
      have good := requireGood_of_length accepted
      simp only [RLP.length, good, bind, Except.bind] at accepted
      by_cases data : first.toNat < 192
      · have size' : lengthSize (first :: tail) = first.toNat - 183 := by
          simp [lengthSize, data]
        rw [size'] at long ⊢
        have notSingle : ¬ first.toNat < 128 := by omega
        have notShort : ¬ first.toNat ≤ 183 := by omega
        simp only [rlpDataImmLenStart_eq, rlpDataIndLenZero_eq,
          rlpListStart_eq, notSingle, notShort, data, if_false, if_true]
          at accepted
        exact inner long accepted
      · have size' : lengthSize (first :: tail) = first.toNat - 247 := by
          simp [lengthSize, data]
        rw [size'] at long ⊢
        have notSingle : ¬ first.toNat < 128 := by omega
        have notShort : ¬ first.toNat ≤ 183 := by omega
        have notShortList : ¬ first.toNat ≤ 247 := by omega
        simp only [rlpDataImmLenStart_eq, rlpDataIndLenZero_eq,
          rlpListStart_eq, rlpListIndLenZero_eq, notSingle, notShort, data,
          notShortList, if_false] at accepted
        exact inner long accepted

/-- The size of a nonempty view, whichever way `actualSize` finds it. -/
theorem length_of_actualSize {view : Bytes} {total : Nat}
    (nonempty : view ≠ []) (accepted : RLP.actualSize view = .ok total) :
    ∃ size, RLP.length view = .ok size ∧ payloadOffset view + size = total := by
  obtain ⟨first, tail, rfl⟩ := List.exists_cons_of_ne_nil nonempty
  by_cases single : isSingleByte (first :: tail)
  · have low : first.toNat < 128 := by simpa [isSingleByte] using single
    have other : first.toNat ≠ 129 := by omega
    refine ⟨1, ?_, ?_⟩
    · simp [RLP.length, requireGood, other, low, bind, Except.bind]
    · simpa [actualSize, isNull, single, payloadOffset, pure, Except.pure]
        using accepted
  · cases accepted' : RLP.length (first :: tail) with
    | error error =>
        simp [actualSize, isNull, single, accepted', bind, Except.bind]
          at accepted
    | ok size =>
        have small := payloadOffset_add_length_lt accepted'
        refine ⟨size, rfl, ?_⟩
        simpa [actualSize, isNull, single, accepted', bind, Except.bind, pure,
          Except.pure, Nat.mod_eq_of_lt small] using accepted

theorem construct_veryStrict_ok {bytes view : Bytes}
    (accepted : construct bytes .veryStrict = .ok view) :
    view = bytes ∧ actualSize bytes = .ok bytes.length := by
  cases size : actualSize bytes with
  | error error =>
      simp [construct, Strictness.veryStrict, size, bind, Except.bind]
        at accepted
  | ok total =>
      by_cases big : total < bytes.length
      · simp [construct, Strictness.veryStrict, size, big, bind, Except.bind,
          throw, throwThe, MonadExceptOf.throw] at accepted
      by_cases small : bytes.length < total
      · simp [construct, Strictness.veryStrict, size, big, small, bind,
          Except.bind, pure, Except.pure, throw, throwThe,
          MonadExceptOf.throw] at accepted
      have exact : total = bytes.length := by omega
      simp [construct, Strictness.veryStrict, size, big, small, bind,
        Except.bind, pure, Except.pure] at accepted
      exact ⟨accepted.symm, by rw [exact]⟩

theorem sizeAsEncoded_ok {view : Bytes} {total : Nat}
    (accepted : sizeAsEncoded view = .ok total) :
    actualSize view = .ok total ∧ total ≤ view.length := by
  cases size : actualSize view with
  | error error =>
      simp [sizeAsEncoded, construct, Strictness.throwIfTooSmall, size, bind,
        Except.bind, pure, Except.pure] at accepted
  | ok actual =>
      by_cases small : view.length < actual
      · simp [sizeAsEncoded, construct, Strictness.throwIfTooSmall, size,
          small, bind, Except.bind, pure, Except.pure, throw, throwThe,
          MonadExceptOf.throw] at accepted
      simp [sizeAsEncoded, construct, Strictness.throwIfTooSmall, size, small,
        bind, Except.bind, pure, Except.pure] at accepted
      exact ⟨by rw [accepted], by omega⟩

theorem actualSize_pos {view : Bytes} {total : Nat} (nonempty : view ≠ [])
    (accepted : actualSize view = .ok total) : 0 < total := by
  obtain ⟨first, tail, rfl⟩ := List.exists_cons_of_ne_nil nonempty
  obtain ⟨size, length, sum⟩ := length_of_actualSize nonempty accepted
  by_cases single : isSingleByte (first :: tail)
  · have low : first.toNat < 128 := by simpa [isSingleByte] using single
    have other : first.toNat ≠ 129 := by omega
    have one : size = 1 := by
      simp [RLP.length, requireGood, other, low, bind, Except.bind] at length
      exact length.symm
    omega
  · simp [payloadOffset, single] at sum
    omega

/-- A constructed nonempty view is the canonical string or list around its
payload, and that payload is below the reader's limit. -/
theorem canonical_of_construct {bytes view : Bytes} (nonempty : bytes ≠ [])
    (accepted : construct bytes .veryStrict = .ok view) :
    ∃ content, content.length < readLimit ∧
      (bytes = encodeData content ∨ bytes = encodeList content) := by
  obtain ⟨_, total⟩ := construct_veryStrict_ok accepted
  obtain ⟨size, length, sum⟩ := length_of_actualSize nonempty total
  obtain ⟨content, rest, same, small, shape⟩ :=
    canonical_of_length nonempty length (by omega)
  have limit : content.length < readLimit := by omega
  -- the reader's own size of the canonical part leaves nothing behind it
  rcases shape with ⟨_, split⟩ | ⟨_, split⟩
  · have framed := (framed_encodeData rest limit).actualSize
    rw [← split, total] at framed
    have whole := Except.ok.inj framed
    have lengths : bytes.length = (encodeData content).length + rest.length :=
      by simp [split]
    rw [encodeData_eq_append, List.length_append] at lengths
    have empty : rest = [] := List.eq_nil_of_length_eq_zero (by omega)
    exact ⟨content, limit, .inl (by simpa [empty] using split)⟩
  · have framed := (framed_encodeList rest limit).actualSize
    rw [← split, total] at framed
    have whole := Except.ok.inj framed
    have lengths : bytes.length = (encodeList content).length + rest.length :=
      by simp [split]
    rw [encodeList_eq_append, List.length_append] at lengths
    have empty : rest = [] := List.eq_nil_of_length_eq_zero (by omega)
    exact ⟨content, limit, .inr (by simpa [empty] using split)⟩

/-- A payload beyond the reader's limit has a prefix of nine bytes. -/
theorem nine_le_lengthPrefix (start : Nat) {size : Nat} (large : readLimit ≤ size) :
    9 ≤ (lengthPrefix start size).length := by
  rw [readLimit_eq] at large
  have long : ¬ size < 56 := by omega
  have digits : ¬ bytesRequired size ≤ 7 := by
    rw [bytesRequired_le_iff]
    omega
  simp [lengthPrefix, long]
  omega

theorem readable_of_length_lt {item : Item}
    (bound : item.encode.length < readLimit + 9) : Readable item := by
  cases item with
  | data content =>
      by_contra large
      have header := nine_le_lengthPrefix 128 (Nat.not_lt.mp large)
      have wrapped : standsForItself content = false := by
        have length : readLimit ≤ content.length := Nat.not_lt.mp large
        rw [readLimit_eq] at length
        match content with
        | [] => rfl
        | [_] => simp at length
        | _ :: _ :: _ => rfl
      have length : readLimit ≤ content.length := Nat.not_lt.mp large
      simp [encode, encodeData, wrapped] at bound
      omega
  | list items =>
      by_contra large
      have header := nine_le_lengthPrefix 192 (Nat.not_lt.mp large)
      have length : readLimit ≤ (encodeAll items).length :=
        Nat.not_lt.mp large
      simp [encode, encodeList] at bound
      omega

/-- What the constructor accepts is so short that every item with this
encoding is readable. -/
theorem length_lt_of_construct {bytes view : Bytes} (nonempty : bytes ≠ [])
    (accepted : construct bytes .veryStrict = .ok view) :
    bytes.length < readLimit + 9 := by
  obtain ⟨content, small, encoded⟩ := canonical_of_construct nonempty accepted
  have limit : content.length < 2 ^ 64 := by
    rw [readLimit_eq] at small
    omega
  rcases encoded with encoded | encoded
  · have bound := encodeData_length_le limit
    rw [encoded]
    omega
  · have bound := encodeList_length_le limit
    rw [encoded]
    omega

/-! ## Accepted iterations -/

/-- The iterator stands on `current`, between `front` and `after`, and is on
an empty item only at the end. -/
structure Standing (view front current after : Bytes) (position : Iterator) :
    Prop where
  split : view = front ++ current ++ after
  remaining : position.remaining = after.length
  currentItem : position.currentItem = ⟨some front.length, current.length⟩
  last : current = [] → after = []

theorem Standing.contents {view front current after : Bytes}
    {position : Iterator}
    (standing : Standing view front current after position) :
    position.currentItem.contents view = current := by
  simp [standing.currentItem, VectorRef.contents, standing.split]

theorem Standing.atEnd {view front current after : Bytes}
    {position : Iterator}
    (standing : Standing view front current after position) :
    position.currentItem = (end_ view).currentItem ↔ current = [] := by
  rw [standing.currentItem]
  simp only [end_, VectorRef.whole, VectorRef.croppedFrom, le_refl, if_true,
    Nat.zero_add, Nat.sub_self, VectorRef.mk.injEq, Option.some.injEq,
    List.length_eq_zero_iff]
  refine ⟨fun same => same.2, fun empty => ⟨?_, empty⟩⟩
  have none := standing.last empty
  simp [standing.split, empty, none]

/-- Cutting the next item off the rest of a payload. -/
theorem standing_next {view front after : Bytes} {size : Nat}
    (split : view = front ++ after) (bounded : view.length < sizeTRange - 1)
    (nonempty : after ≠ []) (accepted : sizeAsEncoded after = .ok size) :
    Standing view front (after.take size) (after.drop size)
      ⟨after.length - size,
        VectorRef.cropped ⟨some front.length, after.length⟩ 0 size⟩ ∧
      0 < size ∧ size ≤ after.length := by
  obtain ⟨actual, inside⟩ := sizeAsEncoded_ok accepted
  have positive := actualSize_pos nonempty actual
  have total : view.length = front.length + after.length := by simp [split]
  refine ⟨⟨?_, by simp, ?_, ?_⟩, positive, inside⟩
  · simp [split]
  · rw [cropped_head inside (by omega)]
    simp [Nat.min_eq_left inside]
  · intro empty
    have none : min size after.length = 0 := by
      rw [← List.length_take, empty]
      rfl
    omega

/-- One increment moves over the current item. -/
theorem Standing.increment {view front current after : Bytes}
    {position following : Iterator}
    (standing : Standing view front current after position)
    (bounded : view.length < sizeTRange - 1)
    (accepted : position.increment view = .ok following) :
    ∃ size, Standing view (front ++ current) (after.take size)
        (after.drop size) following ∧ (after ≠ [] → 0 < size) := by
  have next : position.currentItem.next.data =
      some (front ++ current).length := by
    simp [standing.currentItem, VectorRef.next]
  by_cases finished : after = []
  · have zero : position.remaining = 0 := by
      rw [standing.remaining, finished]
      rfl
    simp only [Iterator.increment, zero, ne_eq, not_true_eq_false, if_false,
      next, pure, Except.pure, Except.ok.injEq] at accepted
    refine ⟨0, ⟨by simp [standing.split], ?_, ?_, by simp [finished]⟩,
      fun more => absurd finished more⟩
    · simp [← accepted, finished]
    · simp [← accepted]
  · have more : after.length ≠ 0 := by simpa using finished
    have viewed : VectorRef.contents view
        ⟨some (front ++ current).length, after.length⟩ = after := by
      simp [VectorRef.contents, standing.split]
    simp only [Iterator.increment, standing.remaining, more, ne_eq,
      not_false_eq_true, if_true, next, viewed, bind, Except.bind, pure,
      Except.pure] at accepted
    cases size : sizeAsEncoded after with
    | error error => simp [size] at accepted
    | ok count =>
        obtain ⟨moved, positive, inside⟩ :=
          standing_next standing.split bounded finished size
        refine ⟨count, ?_, fun _ => positive⟩
        have total : view.length =
            (front ++ current).length + after.length := by
          rw [standing.split, List.length_append]
        have small : after.length < sizeTRange - 1 := by omega
        rw [cropped_head inside small] at moved
        simp only [size, cropped_head inside small, Nat.min_eq_right inside,
          Except.ok.injEq] at accepted
        rw [← accepted]
        exact moved

/-- The visited items are the pieces of the payload from the current item
on, none of them empty. -/
theorem iterateFrom_ok {view front current after : Bytes} {fuel : Nat}
    {position : Iterator} {parts : List Bytes}
    (standing : Standing view front current after position)
    (bounded : view.length < sizeTRange - 1)
    (accepted : iterateFrom view fuel position = .ok parts) :
    parts.flatten = current ++ after ∧ ∀ part ∈ parts, part ≠ [] := by
  induction fuel generalizing front current after position parts with
  | zero => simp [iterateFrom] at accepted
  | succ fuel induction =>
      by_cases empty : current = []
      · have none := standing.last empty
        simp only [iterateFrom, standing.atEnd.mpr empty, if_true,
          Except.ok.injEq] at accepted
        simp [← accepted, empty, none]
      · have different : position.currentItem ≠ (end_ view).currentItem :=
          fun same => empty (standing.atEnd.mp same)
        simp only [iterateFrom, different, if_false, bind, Except.bind]
          at accepted
        cases item : position.dereference view with
        | error error => simp [item] at accepted
        | ok part =>
            cases step : position.increment view with
            | error error => simp [item, step] at accepted
            | ok following =>
                cases rest : iterateFrom view fuel following with
                | error error => simp [item, step, rest] at accepted
                | ok others =>
                    obtain ⟨size, moved, _⟩ :=
                      standing.increment bounded step
                    obtain ⟨joined, nonempty⟩ := induction moved rest
                    rw [Iterator.dereference, standing.contents] at item
                    have same : part = current :=
                      (construct_veryStrict_ok item).1
                    simp only [item, step, rest, pure, Except.pure,
                      Except.ok.injEq, Iterator.dereference,
                      standing.contents] at accepted
                    rw [← accepted, same]
                    refine ⟨?_, ?_⟩
                    · simpa using joined
                    · simpa [empty] using nonempty

theorem standing_begin {content : Bytes} {position : Iterator}
    (small : content.length < readLimit)
    (start : begin_ (encodeList content) = .ok position) :
    ∃ count, Standing (encodeList content) (listHeader content)
      (content.take count) (content.drop count) position := by
  have bounded := encodeList_bounded small
  have isList : isList (encodeList content) = true := by
    simpa using isList_encodeList [] small
  have split : encodeList content = listHeader content ++ content :=
    encodeList_eq_append content
  have viewed : VectorRef.contents (encodeList content)
      ⟨some (listHeader content).length, content.length⟩ = content := by
    simp [VectorRef.contents, split]
  simp only [begin_, isList, if_true, payloadRef_encodeList small, bind,
    Except.bind, viewed, pure, Except.pure] at start
  cases size : sizeAsEncoded content with
  | error error => simp [size] at start
  | ok count =>
      obtain ⟨_, inside⟩ := sizeAsEncoded_ok size
      have room : content.length < sizeTRange - 1 := by
        rw [split, List.length_append] at bounded
        omega
      simp only [size, cropped_head inside room, Except.ok.injEq] at start
      refine ⟨count, ?_⟩
      by_cases empty : content = []
      · subst empty
        have zero : count = 0 := by simpa using inside
        exact ⟨by simp [split], by simp [← start], by simp [← start, zero],
          by simp⟩
      · have first := (standing_next split bounded empty size).1
        rw [cropped_head inside room, start] at first
        exact first

theorem iterate_encodeList_ok {content : Bytes} {parts : List Bytes}
    (small : content.length < readLimit)
    (accepted : iterate (encodeList content) = .ok parts) :
    parts.flatten = content ∧ ∀ part ∈ parts, part ≠ [] := by
  cases start : begin_ (encodeList content) with
  | error error => simp [iterate, start, bind, Except.bind] at accepted
  | ok position =>
      obtain ⟨count, standing⟩ := standing_begin small start
      rw [iterate_of_begin start] at accepted
      simpa using iterateFrom_ok standing (encodeList_bounded small) accepted

/-! ## Accepted walks -/

theorem mapM_readItem_ok {fuel : Nat} {parts : List Bytes}
    {results : List (Option Item)}
    (each : ∀ part result, readItem fuel part = .ok result → part ≠ [] →
      ∃ item, result = some item ∧ item.encode = part)
    (nonempty : ∀ part ∈ parts, part ≠ [])
    (accepted : parts.mapM (readItem fuel) = .ok results) :
    encodeAll (results.filterMap id) = parts.flatten := by
  induction parts generalizing results with
  | nil =>
      have none : results = [] := by
        simpa [pure, Except.pure] using accepted
      subst none
      rfl
  | cons part parts induction =>
      simp only [List.mapM_cons, bind, Except.bind, pure, Except.pure]
        at accepted
      cases head : readItem fuel part with
      | error error => simp [head] at accepted
      | ok result =>
          cases tail : parts.mapM (readItem fuel) with
          | error error => simp [head, tail] at accepted
          | ok others =>
              obtain ⟨item, same, encoded⟩ :=
                each part result head (nonempty part (by simp))
              have rest := induction
                (fun other member => nonempty other (by simp [member])) tail
              simp only [head, tail, Except.ok.injEq] at accepted
              rw [← accepted, same,
                List.filterMap_cons_some (show id (some item) = some item
                  from rfl), encodeAll, encoded, rest]
              rfl

theorem construct_of_read {bytes : Bytes} {result : Option Item}
    (accepted : read bytes = .ok result) :
    construct bytes .veryStrict = .ok bytes := by
  cases built : construct bytes .veryStrict with
  | error error =>
      simp [read, readItem, built, bind, Except.bind] at accepted
  | ok view => rw [(construct_veryStrict_ok built).1]

theorem readItem_ok {fuel : Nat} {bytes : Bytes} {result : Option Item}
    (accepted : readItem fuel bytes = .ok result) (nonempty : bytes ≠ []) :
    ∃ item, result = some item ∧ item.encode = bytes := by
  induction fuel generalizing bytes result with
  | zero => simp [readItem] at accepted
  | succ fuel induction =>
      simp only [readItem, bind, Except.bind] at accepted
      cases built : construct bytes .veryStrict with
      | error error => simp [built] at accepted
      | ok view =>
          have same := (construct_veryStrict_ok built).1
          subst same
          obtain ⟨content, small, encoded | encoded⟩ :=
            canonical_of_construct nonempty built
          · have isList : isList view = false := by
              simpa [encoded] using isList_encodeData [] small
            have isData : isData view = true := by
              simpa [encoded] using isData_encodeData [] small
            have read : toBytes view = .ok content := by
              rw [encoded]
              exact toBytes_encodeData .laissezFaire small
            simp only [built, isList, isData, read, Bool.false_eq_true,
              if_false, if_true, pure, Except.pure, Except.ok.injEq]
              at accepted
            exact ⟨.data content, accepted.symm, encoded.symm⟩
          · have isList : isList view = true := by
              simpa [encoded] using isList_encodeList [] small
            simp only [built, isList, if_true, pure, Except.pure] at accepted
            cases visited : iterate view with
            | error error => simp [visited] at accepted
            | ok parts =>
                cases walked : parts.mapM (readItem fuel) with
                | error error => simp [visited, walked] at accepted
                | ok items =>
                    rw [encoded] at visited
                    obtain ⟨joined, pieces⟩ :=
                      iterate_encodeList_ok small visited
                    have payload := mapM_readItem_ok
                      (fun part result read filled => induction read filled)
                      pieces walked
                    rw [← encoded] at visited
                    simp only [visited, walked, Except.ok.injEq] at accepted
                    refine ⟨_, accepted.symm, ?_⟩
                    rw [encode, payload, joined, encoded]

/-! ## The walk always ends -/

theorem length_ne_diverges (view : Bytes) :
    RLP.length view ≠ .error .diverges := by
  have good : ∀ view, requireGood view ≠ .error .diverges := by
    intro view
    unfold requireGood
    split
    · simp
    · split
      · simp
      · split
        · simp
        · split <;> simp
  have long : ∀ view size minimum,
      longLength view size minimum ≠ .error .diverges := by
    intro view size minimum
    unfold longLength
    split_ifs <;> simp
    split_ifs <;> simp
  cases view with
  | nil => simp [RLP.length]
  | cons first tail =>
      simp only [RLP.length, bind, Except.bind]
      cases result : requireGood (first :: tail) with
      | error error =>
          have other := good (first :: tail)
          simpa [result] using other
      | ok _ =>
          simp only
          split_ifs
          · simp
          · simp
          · exact long _ _ _
          · simp
          · exact long _ _ _

theorem actualSize_ne_diverges (view : Bytes) :
    actualSize view ≠ .error .diverges := by
  have inner := length_ne_diverges view
  unfold actualSize
  split
  · simp [pure, Except.pure]
  · split
    · simp [pure, Except.pure]
    · cases result : RLP.length view with
      | error error => simpa [result, bind, Except.bind] using inner
      | ok size => simp [bind, Except.bind, pure, Except.pure]

theorem construct_veryStrict_ne_diverges (view : Bytes) :
    construct view .veryStrict ≠ .error .diverges := by
  have inner := actualSize_ne_diverges view
  cases result : actualSize view with
  | error error =>
      simpa [construct, Strictness.veryStrict, result, bind, Except.bind]
        using inner
  | ok total =>
      by_cases big : total < view.length
      · simp [construct, Strictness.veryStrict, result, big, bind,
          Except.bind, throw, throwThe, MonadExceptOf.throw]
      by_cases small : view.length < total
      · simp [construct, Strictness.veryStrict, result, big, small, bind,
          Except.bind, pure, Except.pure, throw, throwThe,
          MonadExceptOf.throw]
      simp [construct, Strictness.veryStrict, result, big, small, bind,
        Except.bind, pure, Except.pure]

theorem sizeAsEncoded_ne_diverges (view : Bytes) :
    sizeAsEncoded view ≠ .error .diverges := by
  have inner := actualSize_ne_diverges view
  cases result : actualSize view with
  | error error =>
      simpa [sizeAsEncoded, construct, Strictness.throwIfTooSmall, result,
        bind, Except.bind, pure, Except.pure] using inner
  | ok total =>
      by_cases small : view.length < total
      · simp [sizeAsEncoded, construct, Strictness.throwIfTooSmall, result,
          small, bind, Except.bind, pure, Except.pure, throw, throwThe,
          MonadExceptOf.throw]
      simp [sizeAsEncoded, construct, Strictness.throwIfTooSmall, result,
        small, bind, Except.bind, pure, Except.pure]

theorem increment_ne_diverges (view : Bytes) (position : Iterator) :
    position.increment view ≠ .error .diverges := by
  by_cases more : position.remaining ≠ 0
  · have inner := sizeAsEncoded_ne_diverges (VectorRef.contents view
      ⟨position.currentItem.next.data, position.remaining⟩)
    simp only [Iterator.increment, more, ne_eq, not_false_eq_true, if_true,
      bind, Except.bind]
    cases result : sizeAsEncoded (VectorRef.contents view
        ⟨position.currentItem.next.data, position.remaining⟩) with
    | error error => simpa [result] using inner
    | ok size => simp [pure, Except.pure]
  · simp [Iterator.increment, more, pure, Except.pure]

/-- Every increment leaves less of the payload, so the range loop ends. -/
theorem iterateFrom_ne_diverges {view front current after : Bytes}
    {fuel : Nat} {position : Iterator}
    (standing : Standing view front current after position)
    (bounded : view.length < sizeTRange - 1)
    (enough : current.length + after.length < fuel) :
    iterateFrom view fuel position ≠ .error .diverges := by
  induction fuel generalizing front current after position with
  | zero => omega
  | succ fuel induction =>
      by_cases empty : current = []
      · simp [iterateFrom, standing.atEnd.mpr empty]
      · have different : position.currentItem ≠ (end_ view).currentItem :=
          fun same => empty (standing.atEnd.mp same)
        have positive := List.length_pos_of_ne_nil empty
        simp only [iterateFrom, different, if_false, bind, Except.bind]
        cases item : position.dereference view with
        | error error =>
            have inner := construct_veryStrict_ne_diverges
              (position.currentItem.contents view)
            rw [← Iterator.dereference, item] at inner
            simpa using inner
        | ok part =>
            cases step : position.increment view with
            | error error =>
                have inner := increment_ne_diverges view position
                simpa [step] using inner
            | ok following =>
                obtain ⟨size, moved, _⟩ := standing.increment bounded step
                have total : (after.take size).length +
                    (after.drop size).length = after.length := by
                  rw [← List.length_append, List.take_append_drop]
                have rest := induction moved (by omega)
                cases others : iterateFrom view fuel following with
                | error error => simpa [others] using rest
                | ok parts => simp [others, pure, Except.pure]

theorem iterate_encodeList_ne_diverges {content : Bytes}
    (small : content.length < readLimit) :
    iterate (encodeList content) ≠ .error .diverges := by
  cases start : begin_ (encodeList content) with
  | error error =>
      have isList : isList (encodeList content) = true := by
        simpa using isList_encodeList [] small
      have inner := sizeAsEncoded_ne_diverges (VectorRef.contents
        (encodeList content)
        ⟨some (listHeader content).length, content.length⟩)
      simp only [begin_, isList, if_true, payloadRef_encodeList small, bind,
        Except.bind] at start
      cases size : sizeAsEncoded (VectorRef.contents (encodeList content)
          ⟨some (listHeader content).length, content.length⟩) with
      | error other =>
          simp only [size, Except.error.injEq] at start
          rw [size, start] at inner
          simpa [iterate, begin_, isList, payloadRef_encodeList small, size,
            bind, Except.bind, start] using inner
      | ok count => simp [size, pure, Except.pure] at start
  | ok position =>
      obtain ⟨count, standing⟩ := standing_begin small start
      have shorter := length_lt_encodeList content
      have total : (content.take count).length +
          (content.drop count).length = content.length := by
        rw [← List.length_append, List.take_append_drop]
      rw [iterate_of_begin start]
      exact iterateFrom_ne_diverges standing (encodeList_bounded small)
        (by omega)

theorem mapM_ne_diverges {fuel : Nat} {parts : List Bytes}
    (each : ∀ part ∈ parts, readItem fuel part ≠ .error .diverges) :
    parts.mapM (readItem fuel) ≠ .error .diverges := by
  induction parts with
  | nil => simp [pure, Except.pure]
  | cons part parts induction =>
      have head := each part (by simp)
      have tail := induction (fun other member =>
        each other (by simp [member]))
      simp only [List.mapM_cons, bind, Except.bind, pure, Except.pure]
      cases first : readItem fuel part with
      | error error => simpa [first] using head
      | ok result =>
          cases rest : parts.mapM (readItem fuel) with
          | error error => simpa [rest] using tail
          | ok others => simp

/-- Nesting is below the number of bytes, so the walk ends. -/
theorem readItem_ne_diverges {fuel : Nat} {bytes : Bytes}
    (enough : bytes.length < fuel) :
    readItem fuel bytes ≠ .error .diverges := by
  induction fuel generalizing bytes with
  | zero => omega
  | succ fuel induction =>
      simp only [readItem, bind, Except.bind]
      cases built : construct bytes .veryStrict with
      | error error =>
          have inner := construct_veryStrict_ne_diverges bytes
          simpa [built] using inner
      | ok view =>
          have same := (construct_veryStrict_ok built).1
          subst same
          by_cases empty : view = []
          · simp [empty, isList, isData, pure, Except.pure]
          obtain ⟨content, small, encoded | encoded⟩ :=
            canonical_of_construct empty built
          · have isList : isList view = false := by
              simpa [encoded] using isList_encodeData [] small
            have isData : isData view = true := by
              simpa [encoded] using isData_encodeData [] small
            have read : toBytes view = .ok content := by
              rw [encoded]
              exact toBytes_encodeData .laissezFaire small
            simp [isList, isData, read, pure, Except.pure]
          · have isList : isList view = true := by
              simpa [encoded] using isList_encodeList [] small
            have ends := iterate_encodeList_ne_diverges small
            rw [← encoded] at ends
            simp only [isList, if_true]
            cases visited : iterate view with
            | error error => simpa [visited] using ends
            | ok parts =>
                rw [encoded] at visited
                obtain ⟨joined, _⟩ := iterate_encodeList_ok small visited
                have inner : parts.mapM (readItem fuel) ≠
                    .error .diverges := by
                  apply mapM_ne_diverges
                  intro part member
                  have shorter := length_lt_encodeList content
                  have piece := (List.sublist_flatten_of_mem member).length_le
                  rw [joined] at piece
                  rw [← encoded] at shorter
                  exact induction (by omega)
                cases walked : parts.mapM (readItem fuel) with
                | error error => simpa [walked] using inner
                | ok items => simp [walked, pure, Except.pure]

end RLP

/-- The strict reader accepts exactly canonical encodings.  A completed walk
returns nothing only for the empty view; otherwise the string is the one
encoding of the item returned, and writing that item to a stream gives it
back.  Every canonical encoding below `2^56` bytes is accepted.  The walk
always ends.  At every level an accepted length does not wrap, is given in the
fewest bytes and without a leading zero, and a wrapped single byte has no
length at all. -/
theorem rlp_veryStrict_canonical :
    (∀ bytes result, RLP.read bytes = .ok result →
      (result = none ∧ bytes = []) ∨
      ∃ item, result = some item ∧ item.encode = bytes ∧
        (∀ other : Item, other.encode = bytes → other = item) ∧
        ∃ stream, (Script.ofItem item).write {} = .ok stream ∧
          stream.result = .ok bytes) ∧
    (∀ item : Item, item.encode.length < 2 ^ 56 →
      RLP.read item.encode = .ok (some item)) ∧
    (∀ bytes, RLP.read bytes ≠ .error .diverges) ∧
    (∀ view size, RLP.length view = .ok size →
      RLP.payloadOffset view + size < sizeTRange ∧
      (0 < RLP.lengthSize view →
        (view.drop 1).head? ≠ some 0 ∧
        56 ≤ fromBigEndian ((view.drop 1).take (RLP.lengthSize view)))) ∧
    (∀ (byte : UInt8) (rest : Bytes), byte.toNat < 0x80 →
      RLP.length (0x81 :: byte :: rest) = .error .badRLP) := by
  refine ⟨?_, ?_, ?_, ?_, ?_⟩
  · intro bytes result accepted
    by_cases empty : bytes = []
    · subst empty
      have computed : RLP.read [] = .ok none := rfl
      rw [computed] at accepted
      exact .inl ⟨(Except.ok.inj accepted).symm, rfl⟩
    · obtain ⟨item, same, encoded⟩ := RLP.readItem_ok accepted empty
      have bound := RLP.length_lt_of_construct empty
        (RLP.construct_of_read accepted)
      refine .inr ⟨item, same, encoded, ?_, ?_⟩
      · intro other encodedOther
        rw [← encodedOther] at bound accepted
        have read := RLP.read_encode (RLP.readable_of_length_lt bound)
        rw [accepted, same] at read
        exact (Option.some.inj (Except.ok.inj read)).symm
      · have written : (Script.ofItem item).item.encode.length <
            sizeTRange := by
          rw [Script.item_ofItem, encoded, sizeTRange_eq]
          rw [RLP.readLimit_eq] at bound
          omega
        have stream := Script.write_empty written
        rwa [Script.item_ofItem, encoded] at stream
  · intro item small
    have readable : item.encode.length < RLP.readLimit := by
      rw [RLP.readLimit_eq]
      omega
    exact RLP.read_encode (RLP.readable_of_length readable)
  · intro bytes
    exact RLP.readItem_ne_diverges (Nat.lt_succ_self _)
  · intro view size accepted
    exact ⟨RLP.payloadOffset_add_length_lt accepted,
      RLP.lengthBytes_of_length accepted⟩
  · intro byte rest low
    simp [RLP.length, RLP.requireGood, low, bind, Except.bind]

/-- The list of the empty string, read and written back. -/
theorem rlp_veryStrict_canonical_list :
    RLP.read [0xc1, 0x80] = .ok (some (.list [.data []])) ∧
    ∃ stream, (Script.ofItem (.list [.data []])).write {} = .ok stream ∧
      stream.result = .ok [0xc1, 0x80] := by
  have read : RLP.read [0xc1, 0x80] = .ok (some (.list [.data []])) :=
    rlp_veryStrict_canonical.2.1 (.list [.data []]) (by decide)
  refine ⟨read, ?_⟩
  rcases rlp_veryStrict_canonical.1 _ _ read with ⟨none, _⟩ | accepted
  · cases none
  · obtain ⟨item, same, _, _, written⟩ := accepted
    rw [← Option.some.inj same] at written
    exact written

end Aecmio
