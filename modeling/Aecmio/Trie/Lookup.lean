import Aecmio.Trie.Store

/-!
# Lookup refines the Patricia trie

`atAux` on the encoding of a stored trie returns the bytes of the value that
the trie holds, and the empty string where it holds none.
-/

namespace Aecmio

open Item TrieM Traced Node Patricia Patricia.Trie

variable {sha3 : Bytes → H256} {occurring : Set Bytes} {trie : GenericTrieDB}

/-- A child that is in use is found in line or in the database. -/
theorem run_child {node : Node} (sound : Sound sha3 occurring trie)
    (stored : StoredRef sha3 trie node) (short : node.Short)
    (nonempty : node ≠ .null) :
    (child (ref sha3 node).encode).run trie = .ok (enc sha3 node) trie := by
  unfold child
  by_cases inline : (enc sha3 node).length < 32
  · have list : RLP.isList (item sha3 node).encode = true :=
      isList_enc short nonempty
    rw [ref_inline sha3 inline, list, if_pos rfl]
    rfl
  · obtain ⟨list, _, _, hash⟩ := read_hash (sha3 (enc sha3 node))
    rw [ref_hashed sha3 inline, list, if_neg Bool.false_ne_true, hash,
      ofRLP_ok, pure_bind, EStateM.run_bind,
      node_of_holds sound (stored.1 inline)]
    simp only [rlpOf_enc short]
    rfl

theorem isEmpty_ref {node : Node} (short : node.Short)
    (nonempty : node ≠ .null) :
    RLP.isEmpty (ref sha3 node).encode = false := by
  by_cases inline : (enc sha3 node).length < 32
  · rw [ref_inline sha3 inline]
    exact isEmpty_enc short nonempty
  · rw [ref_hashed sha3 inline]
    exact (read_hash _).2.2.1

theorem toString_slot (value : Option TrieValue) :
    RLP.toString (Item.data (slotBytes value)).encode =
      .ok (slotBytes value) := by
  have bound := slotBytes_length value
  exact RLP.toString_encodeData .laissezFaire (by
    rw [RLP.readLimit_eq]
    omega)

/-- A descent that goes on in a child. -/
theorem run_atAux_child {fuel : Nat} {node : Node} {key : NibbleSlice}
    {result : Bytes} (sound : Sound sha3 occurring trie)
    (stored : StoredRef sha3 trie node) (short : node.Short)
    (nonempty : node ≠ .null)
    (below : (atAux fuel (enc sha3 node) key).run trie = .ok result trie) :
    (do atAux fuel (← child (ref sha3 node).encode) key).run trie =
      .ok result trie := by
  rw [EStateM.run_bind, run_child sound stored short nonempty]
  exact below

theorem run_atAux (sound : Sound sha3 occurring trie) {node : Node}
    (canonical : node.Canonical) (short : node.Short)
    (stored : Stored sha3 trie node) {fuel : Nat} {key : NibbleSlice}
    (valid : key.Valid) (enough : key.toList.length < fuel) :
    (atAux fuel (enc sha3 node) key).run trie =
      .ok (slotBytes (node.get key.toList)) trie := by
  induction node generalizing fuel key with
  | null =>
      obtain ⟨fuel, rfl⟩ : ∃ less, fuel = less + 1 := ⟨fuel - 1, by omega⟩
      have empty : RLP.isEmpty (enc sha3 .null) = true := rfl
      simp [atAux, empty, slotBytes]
  | leaf path value =>
      obtain ⟨fuel, rfl⟩ : ∃ less, fuel = less + 1 := ⟨fuel - 1, by omega⟩
      have small : SmallPair path true (.data value.val) :=
        small_pair true short (encode_value_length value)
      have view : enc sha3 (.leaf path value) =
          (pairItem path true (.data value.val)).encode := rfl
      have notNull : RLP.isNull (pairItem path true
        (.data value.val)).encode = false := isNull_encode _
      have read := toString_slot (some value)
      rw [view, atAux]
      simp only [isEmpty_pair small, notNull, Bool.or_self,
        Bool.false_eq_true, if_false, nodeCount_pair small, pure_bind,
        if_true, keyOf_pair small, andLeaf_pair small,
        NibbleSlice.equals_eq valid (valid_keySlice _ _), toList_keySlice,
        beq_self_eq_true, Bool.and_true, show (true == false) = false from rfl,
        Bool.and_false, itemAt_pair_second small]
      by_cases same : key.toList = path
      · have other : path = key.toList := same.symm
        rw [if_pos (by simpa using same)]
        simp only [get_leaf, other, if_true]
        exact congrArg (fun result => EStateM.run (ofRLP result) trie) read
      · have other : ¬ path = key.toList := fun equal => same equal.symm
        rw [if_neg (by simpa using same)]
        simp [get_leaf, other, slotBytes]
  | ext path below induction =>
      obtain ⟨fuel, rfl⟩ : ∃ less, fuel = less + 1 := ⟨fuel - 1, by omega⟩
      obtain ⟨nonempty, branch, inner⟩ := canonical
      obtain ⟨shortKey, shortBelow⟩ := short
      have bound := encode_reference_length sha3 (item sha3 below)
      have small : SmallPair path false (ref sha3 below) :=
        small_pair false shortKey (Nat.lt_of_le_of_lt bound (by decide))
      have view : enc sha3 (.ext path below) =
          (pairItem path false (ref sha3 below)).encode := rfl
      have notNull : RLP.isNull (pairItem path false
        (ref sha3 below)).encode = false := isNull_encode _
      rw [view, atAux]
      simp only [isEmpty_pair small, notNull, Bool.or_self,
        Bool.false_eq_true, if_false, nodeCount_pair small, pure_bind,
        if_true, keyOf_pair small, andLeaf_pair small,
        NibbleSlice.contains_eq valid (valid_keySlice _ _), toList_keySlice,
        beq_self_eq_true, Bool.and_true, show (false == true) = false from rfl,
        Bool.and_false, itemAt_pair_second small, NibbleSlice.size_eq]
      by_cases inside : path <+: key.toList
      · have positive := List.length_pos_of_ne_nil nonempty
        have length := inside.length_le
        rw [if_pos (by simpa using inside), get_ext, if_pos inside,
          ← NibbleSlice.toList_mid]
        refine run_atAux_child sound stored shortBelow
          (ne_null_of_isBranch branch) (induction inner shortBelow stored.2
            (valid.mid length) ?_)
        rw [NibbleSlice.toList_mid, List.length_drop]
        omega
      · rw [if_neg (by simpa using inside), get_ext, if_neg inside]
        rfl
  | branch children value induction =>
      obtain ⟨fuel, rfl⟩ : ∃ less, fuel = less + 1 := ⟨fuel - 1, by omega⟩
      have small := small_branch_ref sha3 children value
      have view : enc sha3 (.branch children value) =
          (branchItem (fun digit => ref sha3 (children digit))
            (slotBytes value)).encode := rfl
      have notNull : RLP.isNull (branchItem
          (fun digit => ref sha3 (children digit))
          (slotBytes value)).encode = false := isNull_encode _
      rw [view, atAux]
      simp only [isEmpty_branch small, notNull, Bool.or_self,
        Bool.false_eq_true, if_false, nodeCount_branch small, pure_bind,
        show ¬ (17 : Nat) = 2 by omega, NibbleSlice.size_eq]
      cases path : key.toList with
      | nil =>
          simp only [List.length_nil, if_true, itemAt_branch_value small,
            pure_bind, toString_slot, ofRLP_ok, get_branch_nil]
          rfl
      | cons digit rest =>
          have first : key.index 0 = some digit := by
            rw [NibbleSlice.index_eq, path]
            rfl
          have midList : (key.mid 1).toList = rest := by simp [path]
          simp only [List.length_cons, Nat.add_one_ne_zero, if_false, first,
            inRange_some, pure_bind, itemAt_branch small digit,
            get_branch_cons]
          by_cases empty : children digit = .null
          · have unused : RLP.isEmpty (ref sha3 .null).encode = true := by
              rw [ref_null]
              rfl
            rw [empty, unused, if_pos rfl]
            rfl
          · rw [isEmpty_ref (short digit) empty, if_neg Bool.false_ne_true,
              ← midList]
            refine run_atAux_child sound (stored digit) (short digit) empty
              (induction digit (canonical.1 digit) (short digit)
                (stored digit).2 (valid.mid (by simp [path])) ?_)
            rw [path, List.length_cons] at enough
            rw [midList]
            omega

end Aecmio
