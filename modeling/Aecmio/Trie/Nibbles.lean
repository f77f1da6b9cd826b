import Aecmio.Bytes
import Aecmio.Patricia.Trie

/-!
# Nibbles and the hex-prefix encoding

`TrieCommon` views byte strings as sequences of nibbles.  The view
`NibbleSlice` and the three encoders `hexPrefixEncode` are given as in the
source; behind each of them stands an operation on lists of nibbles.
Nibble counts are natural numbers: the source keeps them in `int` and
`unsigned`, which is enough for keys below `2^30` bytes.
-/

namespace Aecmio

abbrev Nibble := Fin 16

def highNibble (byte : UInt8) : Nibble := Fin.ofNat 16 (byte.toNat / 16)

def lowNibble (byte : UInt8) : Nibble := Fin.ofNat 16 byte.toNat

def nibble (data : Bytes) (position : Nat) : Nibble :=
  if position % 2 = 1 then lowNibble (data.getD (position / 2) 0)
  else highNibble (data.getD (position / 2) 0)

def asNibbles (data : Bytes) : List Nibble :=
  data.flatMap fun byte => [highNibble byte, lowNibble byte]

/-- The loop of `sharedNibbles`, at most `rounds` times. -/
def sharedNibblesLoop (first : Bytes) (second : Bytes) (endSecond : Nat) :
    Nat → Nat → Nat → Nat
  | 0, _, _ => 0
  | rounds + 1, beginFirst, beginSecond =>
      if beginSecond < endSecond ∧
          nibble first beginFirst = nibble second beginSecond then
        sharedNibblesLoop first second endSecond rounds (beginFirst + 1)
          (beginSecond + 1) + 1
      else 0

def sharedNibbles (first : Bytes) (beginFirst endFirst : Nat)
    (second : Bytes) (beginSecond endSecond : Nat) : Nat :=
  sharedNibblesLoop first second endSecond (endFirst - beginFirst) beginFirst
    beginSecond

/-- A nibble-based view of a byte string. -/
structure NibbleSlice where
  data : Bytes
  offset : Nat := 0
deriving DecidableEq

namespace NibbleSlice

def size (slice : NibbleSlice) : Nat := slice.data.length * 2 - slice.offset

/-- `operator[]`; `none` where the access fails its assertion. -/
def index (slice : NibbleSlice) (position : Nat) : Option Nibble :=
  if (slice.offset + position) / 2 < slice.data.length then
    some (nibble slice.data (slice.offset + position))
  else none

def mid (slice : NibbleSlice) (position : Nat) : NibbleSlice :=
  ⟨slice.data, slice.offset + position⟩

def shared (slice other : NibbleSlice) : Nat :=
  sharedNibbles slice.data slice.offset (slice.offset + slice.size) other.data
    other.offset (other.offset + other.size)

def contains (slice other : NibbleSlice) : Bool :=
  slice.shared other == other.size

/-- `operator==`. -/
def equals (slice other : NibbleSlice) : Bool :=
  other.size == slice.size && slice.shared other == other.size

def empty (slice : NibbleSlice) : Bool := slice.size == 0

/-- What `clear` leaves. -/
def cleared : NibbleSlice := ⟨[], 0⟩

/-- The loop of `isEarlierThan`, at most `rounds` times. -/
def isEarlierThanLoop (slice other : NibbleSlice) : Nat → Nat → Bool
  | 0, position => decide (position < other.size)
  | rounds + 1, position =>
      if position < other.size ∧ position < slice.size then
        let here := nibble slice.data (slice.offset + position)
        let there := nibble other.data (other.offset + position)
        if here < there then true
        else if there < here then false
        else isEarlierThanLoop slice other rounds (position + 1)
      else decide (position < other.size)

def isEarlierThan (slice other : NibbleSlice) : Bool :=
  isEarlierThanLoop slice other slice.size 0

end NibbleSlice

/-- The first byte of a hex-prefix string: termination and oddness. -/
def hexPrefixFlags (leaf odd : Bool) : UInt8 :=
  UInt8.ofNat (((if leaf then 2 else 0) ||| (if odd then 1 else 0)) * 16)

/-- Where a sequence of `size` nibbles is encoded up to; a negative end
counts from behind. -/
def stopNibble (size : Nat) (end_ : Int) : Int :=
  if end_ < 0 then size + 1 + end_ else end_

/-- The overload for a vector of nibbles. -/
def hexPrefixEncodeVector (hexVector : List Nibble) (leaf : Bool)
    (begin_ : Int := 0) (end_ : Int := -1) : Bytes :=
  let start := begin_.toNat
  let stop := (stopNibble hexVector.length end_).toNat
  let odd := (stop - start) % 2 != 0
  let first := hexPrefixFlags leaf odd
  let head :=
    if odd then first ||| UInt8.ofNat (hexVector.getD start 0).val else first
  let start := if odd then start + 1 else start
  head :: (List.range' start ((stop - start + 1) / 2) 2).map fun i =>
    UInt8.ofNat
      ((hexVector.getD i 0).val * 16 + (hexVector.getD (i + 1) 0).val)

/-- One round of the encoding loops: `position` is odd when the nibble
completes the last byte. -/
def appendNibble (state : Bytes × Nat) (digit : Nibble) : Bytes × Nat :=
  let (text, position) := state
  if position % 2 = 1 then
    (text.dropLast ++
      [text.getLastD 0 ||| UInt8.ofNat digit.val], position + 1)
  else (text ++ [UInt8.ofNat digit.val <<< 4], position + 1)

/-- The encoding loop over the nibbles from `start` to `stop`. -/
def appendNibbles (data : Bytes) (start stop : Nat) (state : Bytes × Nat) :
    Bytes × Nat :=
  (List.range' start (stop - start)).foldl
    (fun state i => appendNibble state (nibble data i)) state

/-- The overload for a byte string and an offset in it. -/
def hexPrefixEncodeRef (data : Bytes) (leaf : Bool)
    (beginNibble endNibble : Int) (offset : Nat) : Bytes :=
  let start := (beginNibble + offset).toNat
  let stop := (stopNibble (data.length * 2 - offset) endNibble + offset).toNat
  let odd := (stop - start) % 2 == 1
  (appendNibbles data start stop
    ([hexPrefixFlags leaf odd], if odd then 1 else 2)).1

/-- The overload for two byte strings, read one after the other. -/
def hexPrefixEncodePair (data₁ : Bytes) (offset₁ : Nat) (data₂ : Bytes)
    (offset₂ : Nat) (leaf : Bool) : Bytes :=
  let end₁ := data₁.length * 2
  let end₂ := data₂.length * 2
  let odd := (end₁ - offset₁ + end₂ - offset₂) % 2 == 1
  let state := ([hexPrefixFlags leaf odd], if odd then 1 else 2)
  (appendNibbles data₂ offset₂ end₂
    (appendNibbles data₁ offset₁ end₁ state)).1

namespace NibbleSlice

def hexPrefixEncode (slice : NibbleSlice) (leaf : Bool)
    (begin_ : Int := 0) (end_ : Int := -1) : Bytes :=
  hexPrefixEncodeRef slice.data leaf begin_ end_ slice.offset

def hexPrefixEncodeWith (slice other : NibbleSlice) (leaf : Bool) : Bytes :=
  hexPrefixEncodePair slice.data slice.offset other.data other.offset leaf

end NibbleSlice

/-- `keyOf` of a hex-prefix string. -/
def keyOfHexPrefix (text : Bytes) : NibbleSlice :=
  match text with
  | [] => ⟨text, 0⟩
  | first :: _ =>
      if first &&& 0x10 != 0 then ⟨text, 1⟩ else ⟨text, 2⟩

/-! ## Lists of nibbles -/

@[simp] theorem asNibbles_nil : asNibbles [] = [] := rfl

@[simp] theorem asNibbles_cons (byte : UInt8) (data : Bytes) :
    asNibbles (byte :: data) =
      highNibble byte :: lowNibble byte :: asNibbles data := rfl

@[simp] theorem length_asNibbles (data : Bytes) :
    (asNibbles data).length = data.length * 2 := by
  induction data with
  | nil => rfl
  | cons byte data induction =>
      simp only [asNibbles_cons, List.length_cons, induction]
      omega

theorem asNibbles_append (left right : Bytes) :
    asNibbles (left ++ right) = asNibbles left ++ asNibbles right := by
  simp [asNibbles]

theorem nibble_cons (byte : UInt8) (data : Bytes) (position : Nat) :
    nibble (byte :: data) (position + 2) = nibble data position := by
  have half : (position + 2) / 2 = position / 2 + 1 := by omega
  simp [nibble, half]

theorem nibble_eq {data : Bytes} {position : Nat}
    (inside : position < (asNibbles data).length) :
    nibble data position = (asNibbles data)[position] := by
  induction data generalizing position with
  | nil => simp at inside
  | cons byte data induction =>
      match position with
      | 0 => simp [nibble]
      | 1 => simp [nibble]
      | position + 2 =>
          have shorter : position < (asNibbles data).length := by
            simpa using inside
          rw [nibble_cons, induction shorter]
          rfl

theorem asNibbles_injective : Function.Injective asNibbles := by
  intro left right same
  induction left generalizing right with
  | nil =>
      cases right with
      | nil => rfl
      | cons byte right => simp at same
  | cons byte left induction =>
      cases right with
      | nil => simp at same
      | cons other right =>
          simp only [asNibbles_cons, List.cons.injEq] at same
          obtain ⟨high, low, rest⟩ := same
          have bytes : byte = other := by
            have upper := congrArg Fin.val high
            have lower := congrArg Fin.val low
            have first := byte.toNat_lt
            have second := other.toNat_lt
            simp only [highNibble, lowNibble, Fin.ofNat] at upper lower
            apply UInt8.toNat_inj.mp
            omega
          rw [bytes, induction rest]

namespace NibbleSlice

/-- The nibbles that a slice views. -/
def toList (slice : NibbleSlice) : List Nibble :=
  (asNibbles slice.data).drop slice.offset

@[simp] theorem size_eq (slice : NibbleSlice) :
    slice.size = slice.toList.length := by
  simp [size, toList]

@[simp] theorem toList_mk_zero (data : Bytes) :
    toList ⟨data, 0⟩ = asNibbles data := rfl

@[simp] theorem toList_mid (slice : NibbleSlice) (position : Nat) :
    (slice.mid position).toList = slice.toList.drop position := by
  simp [toList, mid]

theorem index_eq (slice : NibbleSlice) (position : Nat) :
    slice.index position = slice.toList[position]? := by
  unfold index toList
  rw [List.getElem?_drop]
  by_cases inside : slice.offset + position < (asNibbles slice.data).length
  · have half : (slice.offset + position) / 2 < slice.data.length := by
      rw [length_asNibbles] at inside
      omega
    rw [if_pos half, List.getElem?_eq_getElem inside, nibble_eq inside]
  · have half : ¬ (slice.offset + position) / 2 < slice.data.length := by
      rw [length_asNibbles] at inside
      omega
    rw [if_neg half, List.getElem?_eq_none (by omega)]

end NibbleSlice

theorem sharedNibblesLoop_eq (first second : Bytes) (rounds beginFirst
    beginSecond : Nat) (inside : beginFirst + rounds = first.length * 2) :
    sharedNibblesLoop first second (second.length * 2) rounds beginFirst
        beginSecond =
      Patricia.shared ((asNibbles first).drop beginFirst)
        ((asNibbles second).drop beginSecond) := by
  induction rounds generalizing beginFirst beginSecond with
  | zero =>
      have empty : (asNibbles first).drop beginFirst = [] := by
        simp
        omega
      simp [sharedNibblesLoop, empty]
  | succ rounds induction =>
      have here : beginFirst < (asNibbles first).length := by
        simp
        omega
      rw [List.drop_eq_getElem_cons here]
      by_cases more : beginSecond < second.length * 2
      · have there : beginSecond < (asNibbles second).length := by
          simpa using more
        have rest := induction (beginFirst + 1) (beginSecond + 1) (by omega)
        rw [List.drop_eq_getElem_cons there]
        simp only [sharedNibblesLoop, nibble_eq here, nibble_eq there, more,
          true_and, Patricia.shared, rest]
      · have empty : (asNibbles second).drop beginSecond = [] := by
          simp
          omega
        simp [sharedNibblesLoop, more, empty]

namespace NibbleSlice

/-- The slice lies inside its data, as every slice of the program does. -/
def Valid (slice : NibbleSlice) : Prop := slice.offset ≤ slice.data.length * 2

theorem Valid.mid {slice : NibbleSlice} {position : Nat} (valid : slice.Valid)
    (inside : position ≤ slice.toList.length) : (slice.mid position).Valid := by
  have total : slice.toList.length = slice.data.length * 2 - slice.offset := by
    simp [toList]
  unfold Valid at valid ⊢
  simp only [NibbleSlice.mid]
  omega

theorem shared_eq {slice other : NibbleSlice} (valid : slice.Valid)
    (validOther : other.Valid) :
    slice.shared other = Patricia.shared slice.toList other.toList := by
  have first : slice.offset + slice.size = slice.data.length * 2 := by
    unfold Valid at valid
    unfold size
    omega
  have second : other.offset + other.size = other.data.length * 2 := by
    unfold Valid at validOther
    unfold size
    omega
  unfold Valid at valid
  rw [shared, sharedNibbles, first, second,
    sharedNibblesLoop_eq _ _ _ _ _ (by omega)]
  rfl

theorem contains_eq {slice other : NibbleSlice} (valid : slice.Valid)
    (validOther : other.Valid) :
    slice.contains other = decide (other.toList <+: slice.toList) := by
  rw [Bool.eq_iff_iff]
  simp [contains, shared_eq valid validOther, Patricia.shared_eq_right_iff]

theorem equals_eq {slice other : NibbleSlice} (valid : slice.Valid)
    (validOther : other.Valid) :
    slice.equals other = decide (slice.toList = other.toList) := by
  rw [Bool.eq_iff_iff]
  simp only [equals, size_eq, Bool.and_eq_true, beq_iff_eq,
    shared_eq valid validOther, Patricia.shared_eq_right_iff,
    decide_eq_true_eq]
  refine ⟨?_, ?_⟩
  · rintro ⟨length, inside⟩
    exact (inside.eq_of_length length).symm
  · intro same
    simp [same]

end NibbleSlice

/-! ## The order of slices -/

namespace NibbleSlice

variable {slice other : NibbleSlice}

@[simp] theorem toList_cleared : cleared.toList = [] := rfl

theorem valid_cleared : cleared.Valid := Nat.le_refl 0

theorem empty_eq : slice.empty = slice.toList.isEmpty := by
  rw [empty, size_eq]
  cases slice.toList <;> rfl

theorem nibble_toList {position : Nat}
    (inside : position < slice.toList.length) :
    nibble slice.data (slice.offset + position) = slice.toList[position] := by
  have bound : slice.offset + position < (asNibbles slice.data).length := by
    rw [toList, List.length_drop] at inside
    omega
  rw [nibble_eq bound]
  simp [toList]

theorem isEarlierThanLoop_eq {rounds position : Nat}
    (enough : slice.toList.length ≤ position + rounds) :
    isEarlierThanLoop slice other rounds position =
      decide (slice.toList.drop position < other.toList.drop position) := by
  induction rounds generalizing position with
  | zero =>
      rw [isEarlierThanLoop, List.drop_of_length_le
        (show slice.toList.length ≤ position from enough), size_eq]
      by_cases more : position < other.toList.length
      · rw [List.drop_eq_getElem_cons more, decide_eq_true more,
          decide_eq_true (List.nil_lt_cons _ _)]
      · rw [List.drop_of_length_le
          (show other.toList.length ≤ position by omega)]
        simp [more]
  | succ rounds induction =>
      rw [isEarlierThanLoop, size_eq, size_eq]
      by_cases more : position < other.toList.length
      · by_cases inside : position < slice.toList.length
        · rw [if_pos ⟨more, inside⟩, nibble_toList inside, nibble_toList more,
            induction (by omega), List.drop_eq_getElem_cons inside,
            List.drop_eq_getElem_cons more]
          simp only [List.cons_lt_cons_iff]
          rcases lt_trichotomy slice.toList[position] other.toList[position]
            with less | same | greater
          · simp [less]
          · simp [same]
          · simp [greater, greater.not_gt, greater.ne']
        · rw [if_neg (fun both => inside both.2), List.drop_of_length_le
            (show slice.toList.length ≤ position by omega),
            List.drop_eq_getElem_cons more, decide_eq_true more,
            decide_eq_true (List.nil_lt_cons _ _)]
      · rw [if_neg (fun both => more both.1), List.drop_of_length_le
          (show other.toList.length ≤ position by omega)]
        simp [more]

theorem isEarlierThan_eq :
    slice.isEarlierThan other = decide (slice.toList < other.toList) := by
  rw [isEarlierThan, isEarlierThanLoop_eq (by rw [size_eq]; omega)]
  rfl

end NibbleSlice

/-- Keys are in the order of their nibbles. -/
theorem asNibbles_lt_iff {left right : Bytes} :
    asNibbles left < asNibbles right ↔ left < right := by
  induction left generalizing right with
  | nil =>
      cases right with
      | nil => simp
      | cons byte right => simp
  | cons byte left induction =>
      cases right with
      | nil => simp
      | cons other right =>
          rw [asNibbles_cons, asNibbles_cons, List.cons_lt_cons_iff,
            List.cons_lt_cons_iff, List.cons_lt_cons_iff, induction]
          have digits : ∀ byte : UInt8, (highNibble byte).val =
              byte.toNat / 16 ∧ (lowNibble byte).val = byte.toNat % 16 := by
            intro byte
            have bound := byte.toNat_lt
            constructor
            · exact Nat.mod_eq_of_lt (by omega)
            · rfl
          have first := digits byte
          have second := digits other
          rw [UInt8.lt_iff_toNat_lt, ← UInt8.toNat_inj, Fin.lt_def, Fin.lt_def,
            Fin.ext_iff, Fin.ext_iff, first.1, first.2, second.1, second.2]
          by_cases before : left < right
          · simp only [before, and_true]
            omega
          · simp only [before, and_false, or_false]
            omega

/-! ## The hex-prefix encoding of a list of nibbles -/

/-- Two nibbles to a byte. -/
def packNibbles : List Nibble → Bytes
  | [] => []
  | [digit] => [UInt8.ofNat digit.val <<< 4]
  | high :: low :: digits =>
      UInt8.ofNat (high.val * 16 + low.val) :: packNibbles digits

/-- The hex-prefix string of a key. -/
def hexPrefix (key : List Nibble) (leaf : Bool) : Bytes :=
  if key.length % 2 = 1 then
    (hexPrefixFlags leaf true ||| UInt8.ofNat (key.headD 0).val) ::
      packNibbles key.tail
  else hexPrefixFlags leaf false :: packNibbles key

theorem shiftLeft_or_nibble (high low : Nibble) :
    UInt8.ofNat high.val <<< 4 ||| UInt8.ofNat low.val =
      UInt8.ofNat (high.val * 16 + low.val) := by
  revert high low
  decide

theorem foldl_appendNibble (key : List Nibble) (text : Bytes) {position : Nat}
    (even : position % 2 = 0) :
    (key.foldl appendNibble (text, position)).1 = text ++ packNibbles key := by
  induction key using packNibbles.induct generalizing text position with
  | case1 => simp [packNibbles]
  | case2 digit => simp [appendNibble, even, packNibbles]
  | case3 high low digits induction =>
      have odd : (position + 1) % 2 = 1 := by omega
      have next := induction
        (text ++ [UInt8.ofNat (high.val * 16 + low.val)])
        (show (position + 1 + 1) % 2 = 0 by omega)
      simp only [List.foldl_cons, appendNibble, even, Nat.zero_ne_one,
        if_false, odd, if_true, List.dropLast_concat, List.getLastD_concat,
        shiftLeft_or_nibble, next, packNibbles]
      simp

/-- The encoding loops, with the right oddness announced. -/
theorem foldl_appendNibble_flags (key : List Nibble) (leaf : Bool)
    {odd : Bool} (parity : odd = (key.length % 2 == 1)) :
    (key.foldl appendNibble
      ([hexPrefixFlags leaf odd], if odd then 1 else 2)).1 =
      hexPrefix key leaf := by
  subst parity
  by_cases one : key.length % 2 = 1
  · cases key with
    | nil => simp at one
    | cons first rest =>
        have step : ((first :: rest).foldl appendNibble
            ([hexPrefixFlags leaf true], 1)).1 =
              [hexPrefixFlags leaf true ||| UInt8.ofNat first.val] ++
                packNibbles rest := by
          rw [List.foldl_cons]
          exact foldl_appendNibble rest _ (by decide)
        rw [hexPrefix, if_pos one, beq_iff_eq.mpr one, if_pos rfl, step]
        rfl
  · have step := foldl_appendNibble key [hexPrefixFlags leaf false]
      (show 2 % 2 = 0 by decide)
    rw [hexPrefix, if_neg one, beq_eq_false_iff_ne.mpr one,
      if_neg Bool.false_ne_true, step]
    rfl

theorem map_nibble_range' {data : Bytes} {start count : Nat}
    (inside : start + count ≤ data.length * 2) :
    (List.range' start count).map (nibble data) =
      ((asNibbles data).drop start).take count := by
  apply List.ext_getElem
  · simp
    omega
  · intro position here there
    have bound : start + position < (asNibbles data).length := by
      simp at here ⊢
      omega
    simp [nibble_eq bound]

theorem appendNibbles_eq {data : Bytes} {start stop : Nat}
    (ordered : start ≤ stop) (inside : stop ≤ data.length * 2)
    (state : Bytes × Nat) :
    appendNibbles data start stop state =
      (((asNibbles data).drop start).take (stop - start)).foldl appendNibble
        state := by
  rw [← map_nibble_range' (show start + (stop - start) ≤ data.length * 2
    by omega), List.foldl_map, appendNibbles]

@[simp] theorem stopNibble_default (size : Nat) :
    stopNibble size (-1) = size := by
  simp [stopNibble]

@[simp] theorem stopNibble_ofNat (size count : Nat) :
    stopNibble size count = count := by
  simp [stopNibble]

theorem hexPrefixEncodeRef_eq {data : Bytes} {offset start stop : Nat}
    {beginNibble endNibble : Int} (leaf : Bool)
    (first : beginNibble + offset = start)
    (last : stopNibble (data.length * 2 - offset) endNibble + offset = stop)
    (ordered : start ≤ stop) (inside : stop ≤ data.length * 2) :
    hexPrefixEncodeRef data leaf beginNibble endNibble offset =
      hexPrefix (((asNibbles data).drop start).take (stop - start)) leaf := by
  simp only [hexPrefixEncodeRef, first, last, Int.toNat_natCast,
    appendNibbles_eq ordered inside]
  refine foldl_appendNibble_flags _ _ ?_
  have length : (((asNibbles data).drop start).take (stop - start)).length =
      stop - start := by
    simp
    omega
  rw [length]

namespace NibbleSlice

theorem hexPrefixEncode_drop {slice : NibbleSlice} (leaf : Bool)
    {count : Nat} (valid : slice.Valid)
    (inside : count ≤ slice.toList.length) :
    slice.hexPrefixEncode leaf count =
      hexPrefix (slice.toList.drop count) leaf := by
  unfold Valid at valid
  have bound : count ≤ slice.data.length * 2 - slice.offset := by
    simpa [toList] using inside
  rw [hexPrefixEncode, hexPrefixEncodeRef_eq leaf
    (show (count : Int) + slice.offset = (slice.offset + count : Nat)
      by omega)
    (show _ = ((slice.data.length * 2 : Nat) : Int) by
      rw [stopNibble_default]
      omega) (by omega) (Nat.le_refl _),
    List.take_of_length_le (by simp), ← List.drop_drop, toList]

theorem hexPrefixEncode_eq {slice : NibbleSlice} (leaf : Bool)
    (valid : slice.Valid) :
    slice.hexPrefixEncode leaf = hexPrefix slice.toList leaf :=
  hexPrefixEncode_drop leaf valid (Nat.zero_le _)

theorem hexPrefixEncode_take {slice : NibbleSlice} (leaf : Bool)
    {count : Nat} (valid : slice.Valid)
    (inside : count ≤ slice.toList.length) :
    slice.hexPrefixEncode leaf 0 count =
      hexPrefix (slice.toList.take count) leaf := by
  unfold Valid at valid
  have bound : count ≤ slice.data.length * 2 - slice.offset := by
    simpa [toList] using inside
  rw [hexPrefixEncode, hexPrefixEncodeRef_eq leaf
    (show (0 : Int) + slice.offset = (slice.offset : Nat) by omega)
    (show _ = ((slice.offset + count : Nat) : Int) by
      rw [stopNibble_ofNat]
      omega) (by omega) (by omega), toList]
  simp

theorem hexPrefixEncodeWith_eq {slice other : NibbleSlice} (leaf : Bool)
    (valid : slice.Valid) (validOther : other.Valid) :
    slice.hexPrefixEncodeWith other leaf =
      hexPrefix (slice.toList ++ other.toList) leaf := by
  unfold Valid at valid validOther
  have first : ((asNibbles slice.data).drop slice.offset).take
      (slice.data.length * 2 - slice.offset) = slice.toList := by
    rw [toList, List.take_of_length_le]
    simp
  have second : ((asNibbles other.data).drop other.offset).take
      (other.data.length * 2 - other.offset) = other.toList := by
    rw [toList, List.take_of_length_le]
    simp
  simp only [hexPrefixEncodeWith, hexPrefixEncodePair,
    appendNibbles_eq valid (Nat.le_refl _),
    appendNibbles_eq validOther (Nat.le_refl _), first, second,
    ← List.foldl_append]
  refine foldl_appendNibble_flags _ _ ?_
  have order : slice.data.length * 2 - slice.offset +
      other.data.length * 2 - other.offset =
        (slice.toList ++ other.toList).length := by
    simp [toList]
    omega
  rw [order]

end NibbleSlice

/-! ## Vectors of nibbles -/

theorem map_pairs_range' {digits : List Nibble} {start count : Nat}
    (inside : start + count * 2 ≤ digits.length) :
    ((List.range' start count 2).map fun i =>
      UInt8.ofNat
        ((digits.getD i 0).val * 16 + (digits.getD (i + 1) 0).val)) =
      packNibbles ((digits.drop start).take (count * 2)) := by
  induction count generalizing start with
  | zero => simp [packNibbles]
  | succ count induction =>
      have here : start < digits.length := by omega
      have next : start + 1 < digits.length := by omega
      have rest := induction (show start + 2 + count * 2 ≤ digits.length
        by omega)
      rw [List.range'_succ, List.map_cons, rest,
        List.drop_eq_getElem_cons here, List.drop_eq_getElem_cons next,
        show (count + 1) * 2 = count * 2 + 1 + 1 by omega,
        List.take_succ_cons, List.take_succ_cons, packNibbles]
      simp [here, next]

theorem hexPrefixEncodeVector_eq {digits : List Nibble} {start stop : Nat}
    {end_ : Int} (leaf : Bool) (last : stopNibble digits.length end_ = stop)
    (ordered : start ≤ stop) (inside : stop ≤ digits.length) :
    hexPrefixEncodeVector digits leaf start end_ =
      hexPrefix ((digits.drop start).take (stop - start)) leaf := by
  have length : ((digits.drop start).take (stop - start)).length =
      stop - start := by
    simp
    omega
  simp only [hexPrefixEncodeVector, last, Int.toNat_natCast, hexPrefix, length]
  by_cases odd : (stop - start) % 2 = 1
  · have here : start < digits.length := by omega
    obtain ⟨more, split⟩ : ∃ more, stop - start = more + 1 :=
      ⟨stop - start - 1, by omega⟩
    have half : (stop - (start + 1) + 1) / 2 * 2 = more := by omega
    have pairs := map_pairs_range'
      (show start + 1 + (stop - (start + 1) + 1) / 2 * 2 ≤ digits.length
        by omega)
    rw [half] at pairs
    have tested : ((stop - start) % 2 != 0) = true := by simp [odd]
    rw [tested, if_pos rfl, if_pos rfl, if_pos odd, pairs, split,
      List.drop_eq_getElem_cons here, List.take_succ_cons]
    simp [here]
  · have half : (stop - start + 1) / 2 * 2 = stop - start := by omega
    have pairs := map_pairs_range'
      (show start + (stop - start + 1) / 2 * 2 ≤ digits.length by omega)
    rw [half] at pairs
    have tested : ((stop - start) % 2 != 0) = false := by
      simp
      omega
    rw [tested, if_neg Bool.false_ne_true, if_neg Bool.false_ne_true,
      if_neg odd, pairs]

theorem hexPrefixEncodeVector_drop (before digits : List Nibble)
    (leaf : Bool) :
    hexPrefixEncodeVector (before ++ digits) leaf before.length =
      hexPrefix digits leaf := by
  rw [hexPrefixEncodeVector_eq leaf (stopNibble_default _) (by simp)
    (Nat.le_refl _), List.drop_left, List.take_of_length_le (by simp)]

theorem hexPrefixEncodeVector_slice (before digits after : List Nibble)
    (leaf : Bool) :
    hexPrefixEncodeVector (before ++ (digits ++ after)) leaf before.length
        ((before.length + digits.length : Nat) : Int) =
      hexPrefix digits leaf := by
  rw [hexPrefixEncodeVector_eq leaf (stopNibble_ofNat _ _) (by simp)
    (by simp), List.drop_left, Nat.add_sub_cancel_left, List.take_left]

/-! ## Reading a hex-prefix string back -/

theorem asNibbles_packNibbles {key : List Nibble}
    (even : key.length % 2 = 0) : asNibbles (packNibbles key) = key := by
  have digits : ∀ high low : Nibble,
      highNibble (UInt8.ofNat (high.val * 16 + low.val)) = high ∧
        lowNibble (UInt8.ofNat (high.val * 16 + low.val)) = low := by
    decide
  induction key using packNibbles.induct with
  | case1 => rfl
  | case2 digit => simp at even
  | case3 high low rest induction =>
      have shorter : rest.length % 2 = 0 := by
        simp at even
        omega
      rw [packNibbles, asNibbles_cons, (digits high low).1,
        (digits high low).2, induction shorter]

theorem hexPrefix_ne_nil (key : List Nibble) (leaf : Bool) :
    hexPrefix key leaf ≠ [] := by
  unfold hexPrefix
  split <;> simp

theorem length_packNibbles (key : List Nibble) :
    (packNibbles key).length = (key.length + 1) / 2 := by
  induction key using packNibbles.induct with
  | case1 => rfl
  | case2 digit => simp [packNibbles]
  | case3 high low rest induction =>
      simp [packNibbles, induction]
      omega

theorem length_hexPrefix (key : List Nibble) (leaf : Bool) :
    (hexPrefix key leaf).length = key.length / 2 + 1 := by
  unfold hexPrefix
  split
  · cases key with
    | nil => simp at *
    | cons first rest =>
        simp [length_packNibbles] at *
  · simp [length_packNibbles]
    omega

theorem flags_bits (leaf : Bool) (digit : Nibble) :
    (hexPrefixFlags leaf true ||| UInt8.ofNat digit.val) &&& 0x10 ≠ 0 ∧
      hexPrefixFlags leaf false &&& 0x10 = 0 ∧
      lowNibble (hexPrefixFlags leaf true ||| UInt8.ofNat digit.val) =
        digit ∧
      ((hexPrefixFlags leaf true ||| UInt8.ofNat digit.val) &&& 0x20 != 0) =
        leaf ∧
      (hexPrefixFlags leaf false &&& 0x20 != 0) = leaf := by
  revert leaf digit
  decide

/-- `keyOf` inverts the encoding. -/
theorem keyOfHexPrefix_hexPrefix (key : List Nibble) (leaf : Bool) :
    (keyOfHexPrefix (hexPrefix key leaf)).toList = key ∧
      (keyOfHexPrefix (hexPrefix key leaf)).Valid := by
  by_cases odd : key.length % 2 = 1
  · cases key with
    | nil => simp at odd
    | cons first rest =>
        obtain ⟨marked, _, low, _, _⟩ := flags_bits leaf first
        have even : rest.length % 2 = 0 := by
          simp at odd
          omega
        have text : hexPrefix (first :: rest) leaf =
            (hexPrefixFlags leaf true ||| UInt8.ofNat first.val) ::
              packNibbles rest := by
          rw [hexPrefix, if_pos odd]
          rfl
        rw [text]
        simp [keyOfHexPrefix, marked, NibbleSlice.toList,
          NibbleSlice.Valid, low, asNibbles_packNibbles even]
        omega
  · obtain ⟨_, marked, _, _, _⟩ := flags_bits leaf 0
    have even : key.length % 2 = 0 := by omega
    simp [hexPrefix, odd, keyOfHexPrefix, marked, NibbleSlice.toList,
      NibbleSlice.Valid, asNibbles_packNibbles even]

/-- The termination flag of the first byte. -/
theorem head_hexPrefix (key : List Nibble) (leaf : Bool) :
    ∃ first rest, hexPrefix key leaf = first :: rest ∧
      (first &&& 0x20 != 0) = leaf := by
  by_cases odd : key.length % 2 = 1
  · exact ⟨_, _, by rw [hexPrefix, if_pos odd],
      (flags_bits leaf (key.headD 0)).2.2.2.1⟩
  · exact ⟨_, _, by rw [hexPrefix, if_neg odd],
      (flags_bits leaf 0).2.2.2.2⟩

end Aecmio
