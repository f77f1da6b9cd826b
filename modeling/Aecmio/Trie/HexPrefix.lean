import Aecmio.Trie.Nibbles

/-!
# The three encoders of hex-prefix strings

Every encoder gives, for the nibbles that its arguments denote, the bytes that
the overload for a vector gives for these nibbles as a whole; and the
comparisons of slices are the ones of the sequences they view.
-/

namespace Patricia

variable {ι : Type*} [DecidableEq ι] {left right : List ι} {count : ℕ}

/-- `shared` counts the longest common prefix. -/
theorem le_shared_iff : count ≤ shared left right ↔
    count ≤ left.length ∧ count ≤ right.length ∧
      left.take count = right.take count := by
  induction left generalizing right count with
  | nil => cases count <;> simp
  | cons digit left induction =>
      cases right with
      | nil => cases count <;> simp
      | cons other right =>
          cases count with
          | zero => simp
          | succ count =>
              rw [shared]
              split
              · next same =>
                  simp [same, induction]
              · next different =>
                  simp [different]

end Patricia

namespace Aecmio

/-- The bit that `isLeaf` reads from the payload. -/
def leafBit (payload : Bytes) : Bool := payload.headD 0 &&& 0x20 != 0

/-- The nibbles between `start` and an end that may count from behind. -/
def subrange (digits : List Nibble) (start : ℕ) (end_ : Int) : List Nibble :=
  (digits.drop start).take ((stopNibble digits.length end_).toNat - start)

/-- The start is not behind the end, and the end is inside. -/
structure Subrange (digits : List Nibble) (start : ℕ) (end_ : Int) : Prop where
  ordered : (start : Int) ≤ stopNibble digits.length end_
  inside : stopNibble digits.length end_ ≤ digits.length

namespace Subrange

variable {digits : List Nibble} {start : ℕ} {end_ : Int}

theorem stop_eq (range : Subrange digits start end_) :
    stopNibble digits.length end_ =
      ((stopNibble digits.length end_).toNat : ℕ) := by
  have ordered := range.ordered
  omega

theorem encodeVector (range : Subrange digits start end_) (leaf : Bool) :
    hexPrefixEncodeVector digits leaf start end_ =
      hexPrefix (subrange digits start end_) leaf := by
  have ordered := range.ordered
  have inside := range.inside
  exact hexPrefixEncodeVector_eq leaf range.stop_eq (by omega) (by omega)

theorem encodeSlice {slice : NibbleSlice} (valid : slice.Valid)
    (range : Subrange slice.toList start end_) (leaf : Bool) :
    slice.hexPrefixEncode leaf start end_ =
      hexPrefix (subrange slice.toList start end_) leaf := by
  have ordered := range.ordered
  have inside := range.inside
  have stop := range.stop_eq
  have length : slice.toList.length =
      slice.data.length * 2 - slice.offset := by
    simp [NibbleSlice.toList]
  unfold NibbleSlice.Valid at valid
  rw [length] at ordered inside stop
  rw [NibbleSlice.hexPrefixEncode, hexPrefixEncodeRef_eq leaf
    (show (start : Int) + slice.offset = (slice.offset + start : ℕ) by omega)
    (show _ = ((slice.offset +
        (stopNibble (slice.data.length * 2 - slice.offset) end_).toNat : ℕ) :
        Int) by omega) (by omega) (by omega), subrange, length,
    NibbleSlice.toList, List.drop_drop, Nat.add_sub_add_left]

end Subrange

theorem encodeWhole (digits : List Nibble) (leaf : Bool) :
    hexPrefixEncodeVector digits leaf = hexPrefix digits leaf :=
  hexPrefixEncodeVector_drop [] digits leaf

theorem leafBit_hexPrefix (digits : List Nibble) (leaf : Bool) :
    leafBit (hexPrefix digits leaf) = leaf := by
  obtain ⟨first, rest, text, flag⟩ := head_hexPrefix digits leaf
  rw [text]
  exact flag

/-- Hex-prefix strings are decoded to what was encoded, by every encoder, and
slices are compared as the sequences they view. -/
theorem hexPrefixEncoders_agree (leaf : Bool) :
    (∀ digits,
      (keyOfHexPrefix (hexPrefixEncodeVector digits leaf)).toList = digits ∧
      leafBit (hexPrefixEncodeVector digits leaf) = leaf) ∧
    (∀ digits start end_, Subrange digits start end_ →
      hexPrefixEncodeVector digits leaf start end_ =
        hexPrefixEncodeVector (subrange digits start end_) leaf) ∧
    (∀ slice : NibbleSlice, slice.Valid →
      (∀ start end_, Subrange slice.toList start end_ →
        slice.hexPrefixEncode leaf start end_ =
          hexPrefixEncodeVector (subrange slice.toList start end_) leaf) ∧
      ∀ other : NibbleSlice, other.Valid →
        slice.hexPrefixEncodeWith other leaf =
          hexPrefixEncodeVector (slice.toList ++ other.toList) leaf ∧
        (slice.contains other ↔ other.toList <+: slice.toList) ∧
        (∀ count, count ≤ slice.shared other ↔
          count ≤ slice.toList.length ∧ count ≤ other.toList.length ∧
            slice.toList.take count = other.toList.take count) ∧
        (slice.isEarlierThan other ↔ slice.toList < other.toList) ∧
        (slice.equals other ↔ slice.toList = other.toList)) := by
  refine ⟨fun digits => ?_, fun digits start end_ range => ?_,
    fun slice valid => ⟨fun start end_ range => ?_,
      fun other validOther => ⟨?_, ?_, fun count => ?_, ?_, ?_⟩⟩⟩
  · rw [encodeWhole]
    exact ⟨(keyOfHexPrefix_hexPrefix digits leaf).1,
      leafBit_hexPrefix digits leaf⟩
  · rw [range.encodeVector, encodeWhole]
  · rw [range.encodeSlice valid, encodeWhole]
  · rw [slice.hexPrefixEncodeWith_eq leaf valid validOther, encodeWhole]
  · rw [NibbleSlice.contains_eq valid validOther, decide_eq_true_iff]
  · rw [NibbleSlice.shared_eq valid validOther, Patricia.le_shared_iff]
  · rw [NibbleSlice.isEarlierThan_eq, decide_eq_true_iff]
  · rw [NibbleSlice.equals_eq valid validOther, decide_eq_true_iff]

theorem hexPrefixEncoders_agree_sample :
    (NibbleSlice.mk [0x12, 0x34, 0x56] 1).hexPrefixEncode true 1 (-2) =
      hexPrefixEncodeVector [3, 4, 5] true :=
  ((hexPrefixEncoders_agree true).2.2 ⟨[0x12, 0x34, 0x56], 1⟩
    (show 1 ≤ 6 by decide)).1 1 (-2) ⟨by decide, by decide⟩

end Aecmio
