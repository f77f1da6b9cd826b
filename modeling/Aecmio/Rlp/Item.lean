import Aecmio.Bytes

/-!
# RLP items and their canonical encoding

An item is a byte string or a list of items.  `Item.encode` is the canonical
encoding: single bytes below `0x80` stand for themselves, and every length
prefix is the shortest one.  It is the specification the stream writer and
the reader of `RLP.cpp` are compared with.
-/

namespace Aecmio

/-! ## The constants of `RLP.h` -/

abbrev rlpMaxLengthBytes : Nat := 8
abbrev rlpDataImmLenStart : Nat := 0x80
abbrev rlpListStart : Nat := 0xc0
abbrev rlpDataImmLenCount : Nat :=
  rlpListStart - rlpDataImmLenStart - rlpMaxLengthBytes
abbrev rlpDataIndLenZero : Nat := rlpDataImmLenStart + rlpDataImmLenCount - 1
abbrev rlpListImmLenCount : Nat := 256 - rlpListStart - rlpMaxLengthBytes
abbrev rlpListIndLenZero : Nat := rlpListStart + rlpListImmLenCount - 1

@[simp] theorem rlpMaxLengthBytes_eq : rlpMaxLengthBytes = 8 := rfl
@[simp] theorem rlpDataImmLenStart_eq : rlpDataImmLenStart = 128 := rfl
@[simp] theorem rlpListStart_eq : rlpListStart = 192 := rfl
@[simp] theorem rlpDataImmLenCount_eq : rlpDataImmLenCount = 56 := rfl
@[simp] theorem rlpDataIndLenZero_eq : rlpDataIndLenZero = 183 := rfl
@[simp] theorem rlpListImmLenCount_eq : rlpListImmLenCount = 56 := rfl
@[simp] theorem rlpListIndLenZero_eq : rlpListIndLenZero = 247 := rfl

/-- A finite tree of byte strings and lists. -/
inductive Item where
  | data (content : Bytes)
  | list (items : List Item)

namespace Item

/-- The length prefix of a payload, in the family starting at `start`. -/
def lengthPrefix (start size : Nat) : Bytes :=
  if size < 56 then [UInt8.ofNat (start + size)]
  else
    UInt8.ofNat (start + 55 + bytesRequired size) ::
      toBigEndian size (bytesRequired size)

/-- A one-byte string that is its own encoding. -/
def standsForItself : Bytes → Bool
  | [byte] => byte.toNat < 0x80
  | _ => false

def encodeData (content : Bytes) : Bytes :=
  if standsForItself content then content
  else lengthPrefix 0x80 content.length ++ content

def encodeList (payload : Bytes) : Bytes :=
  lengthPrefix 0xc0 payload.length ++ payload

mutual

def encode : Item → Bytes
  | .data content => encodeData content
  | .list items => encodeList (encodeAll items)

/-- The payload of a list: its items' encodings one after another. -/
def encodeAll : List Item → Bytes
  | [] => []
  | item :: items => item.encode ++ encodeAll items

end

mutual

/-- Nesting depth, the number of list levels on the longest path. -/
def depth : Item → Nat
  | .data _ => 0
  | .list items => depthAll items + 1

def depthAll : List Item → Nat
  | [] => 0
  | item :: items => max item.depth (depthAll items)

end

theorem encodeAll_eq_flatten (items : List Item) :
    encodeAll items = (items.map encode).flatten := by
  induction items with
  | nil => rfl
  | cons item items induction => simp [encodeAll, induction]

theorem encodeAll_append (left right : List Item) :
    encodeAll (left ++ right) = encodeAll left ++ encodeAll right := by
  simp [encodeAll_eq_flatten]

mutual

/-- A proof by induction over items, with a hypothesis for every element of
a list. -/
theorem induction {motive : Item → Prop}
    (data : ∀ content, motive (.data content))
    (list : ∀ items, (∀ item ∈ items, motive item) → motive (.list items)) :
    ∀ item, motive item
  | .data content => data content
  | .list items => list items (inductionAll data list items)

theorem inductionAll {motive : Item → Prop}
    (data : ∀ content, motive (.data content))
    (list : ∀ items, (∀ item ∈ items, motive item) → motive (.list items)) :
    ∀ items : List Item, ∀ item ∈ items, motive item
  | [] => by simp
  | head :: tail => by
      intro item member
      rcases List.mem_cons.mp member with same | later
      · rw [same]
        exact induction data list head
      · exact inductionAll data list tail item later

end

/-! ## Shape of an encoding -/

theorem lengthPrefix_pos (start size : Nat) :
    0 < (lengthPrefix start size).length := by
  unfold lengthPrefix
  split <;> simp

theorem lengthPrefix_length_le {start size : Nat} (small : size < 2 ^ 64) :
    (lengthPrefix start size).length ≤ 9 := by
  unfold lengthPrefix
  split
  · simp
  · have digits : bytesRequired size ≤ 8 := by
      rw [bytesRequired_le_iff]
      exact small
    simp
    omega

theorem encodeData_pos (content : Bytes) : 0 < (encodeData content).length := by
  unfold encodeData
  split
  · rename_i itself
    cases content with
    | nil => simp [standsForItself] at itself
    | cons _ _ => simp
  · have positive := lengthPrefix_pos 0x80 content.length
    simp
    omega

theorem encodeList_pos (payload : Bytes) : 0 < (encodeList payload).length := by
  have positive := lengthPrefix_pos 0xc0 payload.length
  simp [encodeList]
  omega

theorem encode_pos (item : Item) : 0 < item.encode.length := by
  cases item with
  | data content => simpa [encode] using encodeData_pos content
  | list items => simpa [encode] using encodeList_pos (encodeAll items)

@[simp] theorem encode_ne_nil (item : Item) : item.encode ≠ [] :=
  List.ne_nil_of_length_pos (encode_pos item)

theorem length_le_encodeData (content : Bytes) :
    content.length ≤ (encodeData content).length := by
  unfold encodeData
  split <;> simp

theorem length_lt_encodeList (payload : Bytes) :
    payload.length < (encodeList payload).length := by
  have positive := lengthPrefix_pos 0xc0 payload.length
  simp [encodeList]
  omega

theorem encode_length_le_encodeAll {item : Item} {items : List Item}
    (member : item ∈ items) :
    item.encode.length ≤ (encodeAll items).length := by
  induction items with
  | nil => simp at member
  | cons head tail induction =>
      rcases List.mem_cons.mp member with same | later
      · subst same
        simp [encodeAll]
      · have bound := induction later
        simp [encodeAll]
        omega

theorem length_le_encodeAll (items : List Item) :
    items.length ≤ (encodeAll items).length := by
  induction items with
  | nil => simp
  | cons item items induction =>
      have positive := encode_pos item
      simp [encodeAll]
      omega

theorem encodeData_length_le {content : Bytes}
    (small : content.length < 2 ^ 64) :
    (encodeData content).length ≤ content.length + 9 := by
  have bound : (lengthPrefix 0x80 content.length).length ≤ 9 :=
    lengthPrefix_length_le small
  unfold encodeData
  split
  · omega
  · simp
    omega

theorem encodeList_length_le {payload : Bytes}
    (small : payload.length < 2 ^ 64) :
    (encodeList payload).length ≤ payload.length + 9 := by
  have bound : (lengthPrefix 0xc0 payload.length).length ≤ 9 :=
    lengthPrefix_length_le small
  simp [encodeList]
  omega

/-- A list encoding is longer than each of its items' encodings. -/
theorem encode_length_lt_of_mem {item : Item} {items : List Item}
    (member : item ∈ items) :
    item.encode.length < (Item.list items).encode.length :=
  Nat.lt_of_le_of_lt (encode_length_le_encodeAll member)
    (length_lt_encodeList (encodeAll items))

end Item

end Aecmio
