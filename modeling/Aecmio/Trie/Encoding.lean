import Aecmio.Patricia.Erase
import Aecmio.Rlp.Writing
import Aecmio.Trie.TrieDB

/-!
# Nodes as RLP items

A Patricia trie over nibbles stands for a tree of RLP nodes: a leaf and an
extension are pairs, a branch has seventeen items, and a child is written in
line below 32 bytes and by its hash otherwise.  The readers and writers of
the trie code are evaluated on such nodes.
-/

namespace Aecmio

open Item TrieM

/-- A value that a trie can hold: not empty, and of a size that RLP and
memory can hold. -/
abbrev TrieValue := { value : Bytes // value ≠ [] ∧ value.length < 2 ^ 56 }

abbrev Node := Patricia.Trie Nibble TrieValue

namespace Node

open Patricia.Trie

def slotBytes : Option TrieValue → Bytes
  | none => []
  | some value => value.val

section Hashed

variable (sha3 : Bytes → H256)

/-- How a node stands in its parent. -/
def reference (item : Item) : Item :=
  if item.encode.length < 32 then item else .data (sha3 item.encode).val

def pairItem (key : List Nibble) (leaf : Bool) (second : Item) : Item :=
  .list [.data (hexPrefix key leaf), second]

def branchItems (children : Nibble → Item) (value : Bytes) : List Item :=
  List.ofFn children ++ [.data value]

def item : Node → Item
  | .null => .data []
  | .leaf key value => pairItem key true (.data value.val)
  | .ext key child => pairItem key false (reference sha3 (item child))
  | .branch children value =>
      .list (branchItems
        (fun digit => reference sha3 (item (children digit)))
        (slotBytes value))

/-- The RLP string of a node. -/
def enc (node : Node) : Bytes := (item sha3 node).encode

/-- The item that stands for a child. -/
def ref (node : Node) : Item := reference sha3 (item sha3 node)

end Hashed

/-- All runs of nibbles are short enough to be written. -/
def Short : Node → Prop
  | .null => True
  | .leaf key _ => key.length < 2 ^ 32
  | .ext key child => key.length < 2 ^ 32 ∧ Short child
  | .branch children _ => ∀ digit, Short (children digit)

theorem short_of_get {node : Node} (canonical : node.Canonical)
    (bound : ∀ path value, node.get path = some value →
      path.length < 2 ^ 32) : node.Short := by
  induction node with
  | null => trivial
  | leaf key value => exact bound key value (by simp)
  | ext key child induction =>
      obtain ⟨_, branch, inner⟩ := canonical
      have below : ∀ path value, child.get path = some value →
          (key ++ path).length < 2 ^ 32 := by
        intro path value found
        exact bound (key ++ path) value (by simpa using found)
      obtain ⟨path, value, found⟩ :=
        inner.exists_get (ne_null_of_isBranch branch)
      refine ⟨?_, induction inner ?_⟩
      · have length := below path value found
        rw [List.length_append] at length
        omega
      · intro path value found
        have length := below path value found
        rw [List.length_append] at length
        omega
  | branch children value induction =>
      intro digit
      refine induction digit (canonical.1 digit) ?_
      intro path value found
      have length := bound (digit :: path) value (by simpa using found)
      rw [List.length_cons] at length
      omega

end Node

/-! ## Sizes -/

namespace Node

variable (sha3 : Bytes → H256)

theorem encode_reference_length (item : Item) :
    (reference sha3 item).encode.length ≤ 33 := by
  unfold reference
  split
  · omega
  · have length : (sha3 item.encode).val.length = 32 :=
      (sha3 item.encode).property
    simp only [encode, encodeData]
    split
    · omega
    · simp [lengthPrefix, length]

theorem encodeData_hexPrefix_length {key : List Nibble} (leaf : Bool)
    (short : key.length < 2 ^ 32) :
    (encodeData (hexPrefix key leaf)).length ≤ 2 ^ 32 := by
  have length := length_hexPrefix key leaf
  have bound := encodeData_length_le
    (show (hexPrefix key leaf).length < 2 ^ 64 by omega)
  omega

/-- A pair is small enough to be written and read. -/
theorem small_pair {key : List Nibble} (leaf : Bool) {second : Item}
    (short : key.length < 2 ^ 32) (bound : second.encode.length < 2 ^ 57) :
    (encodeAll [.data (hexPrefix key leaf), second]).length <
      RLP.readLimit := by
  have first := encodeData_hexPrefix_length leaf short
  rw [RLP.readLimit_eq]
  simp only [encodeAll, encode, List.append_nil, List.length_append]
  omega

theorem encode_value_length (value : TrieValue) :
    (Item.data value.val).encode.length < 2 ^ 57 := by
  have size := value.property.2
  have bound := encodeData_length_le
    (show value.val.length < 2 ^ 64 by omega)
  simp only [encode]
  omega

theorem encodeAll_ofFn_length {count bound : Nat} (items : Fin count → Item)
    (each : ∀ i, (items i).encode.length ≤ bound) :
    (encodeAll (List.ofFn items)).length ≤ count * bound := by
  induction count with
  | zero => simp [encodeAll]
  | succ count induction =>
      have first := each 0
      have rest := induction (fun i => items i.succ) (fun i => each i.succ)
      rw [List.ofFn_succ, encodeAll, List.length_append, Nat.succ_mul]
      omega

theorem slotBytes_length (value : Option TrieValue) :
    (slotBytes value).length < 2 ^ 56 := by
  cases value with
  | none => simp [slotBytes]
  | some value => exact value.property.2

theorem small_branch (children : Nibble → Item) {value : Bytes}
    (each : ∀ digit, (children digit).encode.length ≤ 33)
    (size : value.length < 2 ^ 56) :
    (encodeAll (branchItems children value)).length < RLP.readLimit := by
  have slots := encodeAll_ofFn_length children each
  have bound := encodeData_length_le (show value.length < 2 ^ 64 by omega)
  rw [RLP.readLimit_eq]
  simp only [branchItems, encodeAll_append, encodeAll, encode,
    List.length_append, List.append_nil]
  omega

theorem small_branch_ref (children : Nibble → Node)
    (value : Option TrieValue) :
    (encodeAll (branchItems (fun digit => ref sha3 (children digit))
      (slotBytes value))).length < RLP.readLimit :=
  small_branch _ (fun _ => encode_reference_length sha3 _)
    (slotBytes_length value)

theorem readable_item {node : Node} (short : node.Short) :
    RLP.Readable (item sha3 node) := by
  cases node with
  | null =>
      change ([] : Bytes).length < RLP.readLimit
      rw [RLP.readLimit_eq]
      decide
  | leaf key value => exact small_pair true short (encode_value_length value)
  | ext key child =>
      have bound := encode_reference_length sha3 (item sha3 child)
      exact small_pair false short.1 (by omega)
  | branch children value => exact small_branch_ref sha3 children value

end Node

end Aecmio
