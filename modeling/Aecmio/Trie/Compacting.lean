import Aecmio.Trie.Lookup

/-!
# Compacting what a removal leaves

The parts of `deleteAt` that restore the canonical form: the count of the
slots in use, `graft`, which joins the digits of two pairs, and `merge`, which
turns a branch into a pair.
-/

namespace Aecmio

set_option synthInstance.maxSize 1024

open Item TrieM Traced Node Patricia Patricia.Trie

variable {sha3 : Bytes → H256} {occurring : Set Bytes} {trie : GenericTrieDB}

/-! ## Slots in use -/

/-- What the loop of `uniqueInUse` makes of the slots in use it still finds. -/
def uniqueOf (used : Nat) : List Nat → Nat
  | [] => used
  | [slot] => if used = 255 then slot else 255
  | _ => 255

theorem uniqueInUseLoop_eq {items : List Item} {skipped : Nat}
    (small : (encodeAll items).length < RLP.readLimit)
    (inUse : Nat → Bool)
    (reads : ∀ slot item, items[slot]? = some item →
      RLP.isEmpty item.encode = !inUse slot)
    {slots : List Nat} (inside : ∀ slot ∈ slots, slot < items.length)
    (below : ∀ slot ∈ slots, slot ≠ 255) (used : Nat) :
    uniqueInUseLoop (Item.list items).encode skipped slots used =
      pure (uniqueOf used
        (slots.filter fun slot => decide (slot ≠ skipped) && inUse slot)) := by
  induction slots generalizing used with
  | nil => rfl
  | cons slot slots induction =>
      have here := inside slot (by simp)
      have apart := below slot (by simp)
      have rest := fun used => induction
        (fun slot member => inside slot (by simp [member]))
        (fun slot member => below slot (by simp [member])) used
      have found := List.getElem?_eq_getElem here
      have read := itemAt_encode_list found small
      have empty := reads slot _ found
      unfold uniqueInUseLoop
      by_cases skip : slot = skipped
      · simp [skip, rest]
      · rw [if_pos skip, read, pure_bind, empty]
        cases use : inUse slot with
        | false => simp [use, rest]
        | true =>
            rw [if_neg (by simp), List.filter_cons_of_pos (by simp [skip, use])]
            by_cases first : used = 255
            · rw [if_pos first, rest]
              cases later : slots.filter fun slot =>
                  decide (slot ≠ skipped) && inUse slot with
              | nil => simp [uniqueOf, first]
              | cons next more =>
                  cases more <;> simp [uniqueOf, apart]
            · rw [if_neg first]
              cases later : slots.filter fun slot =>
                  decide (slot ≠ skipped) && inUse slot with
              | nil => simp [uniqueOf, first]
              | cons next more => simp [uniqueOf]

section Slots

variable {children : Nibble → Node} {value : Option TrieValue}

/-- A slot of a branch is in use. -/
def slotInUse (children : Nibble → Node) (value : Option TrieValue)
    (slot : Nat) : Bool :=
  if inside : slot < 16 then
    match children ⟨slot, inside⟩ with
    | .null => false
    | _ => true
  else value.isSome

theorem slotInUse_child (children : Nibble → Node)
    (value : Option TrieValue) (digit : Nibble) :
    slotInUse children value digit.val = true ↔ children digit ≠ .null := by
  have inside := digit.isLt
  unfold slotInUse
  rw [dif_pos inside]
  cases children digit <;> simp

theorem slotInUse_value (children : Nibble → Node)
    (value : Option TrieValue) :
    slotInUse children value 16 = value.isSome := by
  simp [slotInUse]

theorem isEmpty_slot (shorts : ∀ digit, (children digit).Short) {slot : Nat}
    {item : Item}
    (found : (branchItems (fun digit => ref sha3 (children digit))
      (slotBytes value))[slot]? = some item) :
    RLP.isEmpty item.encode = !slotInUse children value slot := by
  by_cases inside : slot < 16
  · have here : (branchItems (fun digit => ref sha3 (children digit))
        (slotBytes value))[slot]? = some (ref sha3 (children ⟨slot, inside⟩)) :=
      getElem?_branchItems ⟨slot, inside⟩
    rw [here] at found
    rw [← Option.some.inj found]
    have use := slotInUse_child children value ⟨slot, inside⟩
    by_cases empty : children ⟨slot, inside⟩ = .null
    · have unused : slotInUse children value slot = false := by
        rw [Bool.eq_false_iff]
        exact fun used => use.mp used empty
      rw [empty, unused, ref_null]
      rfl
    · rw [isEmpty_ref (shorts _) empty, use.mpr empty]
      rfl
  · have bound := (List.getElem?_eq_some_iff.mp found).1
    rw [length_branchItems] at bound
    have last : slot = 16 := by omega
    subst last
    rw [getElem?_branchItems_value] at found
    have size := slotBytes_length value
    have empty := RLP.isEmpty_encodeData []
      (show (slotBytes value).length < RLP.readLimit by
        rw [RLP.readLimit_eq]
        omega)
    rw [List.append_nil] at empty
    rw [← Option.some.inj found, slotInUse_value]
    change RLP.isEmpty (encodeData (slotBytes value)) = _
    rw [empty]
    cases value with
    | none => rfl
    | some held =>
        have filled := held.property.1
        simpa [slotBytes] using filled

theorem uniqueInUse_eq (shorts : ∀ digit, (children digit).Short)
    (skipped : Nat) :
    uniqueInUse (enc sha3 (.branch children value)) skipped =
      pure (uniqueOf 255 ((List.range 17).filter fun slot =>
        decide (slot ≠ skipped) && slotInUse children value slot)) := by
  refine uniqueInUseLoop_eq (small_branch_ref sha3 children value) _
    (fun slot item found => isEmpty_slot shorts found) ?_ ?_ 255
  · intro slot member
    rw [length_branchItems]
    exact List.mem_range.mp member
  · intro slot member
    have bound := List.mem_range.mp member
    omega

/-- One slot in use. -/
theorem uniqueOf_single {inUse : Nat → Bool} {slot : Nat} (bound : slot < 17)
    (used : ∀ other < 17, inUse other = true ↔ other = slot) :
    uniqueOf 255 ((List.range 17).filter inUse) = slot := by
  have known : (List.range 17).filter inUse =
      (List.range 17).filter fun other => decide (other = slot) := by
    apply List.filter_congr
    intro other member
    rw [Bool.eq_iff_iff, decide_eq_true_eq]
    exact used other (List.mem_range.mp member)
  have computed : ∀ slot < 17,
      ((List.range 17).filter fun other => decide (other = slot)) =
        [slot] := by
    decide
  rw [known, computed slot bound]
  rfl

/-- Two slots in use. -/
theorem uniqueOf_several {inUse : Nat → Bool} {one two : Nat}
    (bound₁ : one < 17) (bound₂ : two < 17) (different : one ≠ two)
    (used₁ : inUse one = true) (used₂ : inUse two = true) :
    uniqueOf 255 ((List.range 17).filter inUse) = 255 := by
  have member₁ : one ∈ (List.range 17).filter inUse :=
    List.mem_filter.mpr ⟨List.mem_range.mpr bound₁, used₁⟩
  have member₂ : two ∈ (List.range 17).filter inUse :=
    List.mem_filter.mpr ⟨List.mem_range.mpr bound₂, used₂⟩
  match (List.range 17).filter inUse, member₁, member₂ with
  | [], member₁, _ => simp at member₁
  | [slot], member₁, member₂ =>
      rw [List.mem_singleton] at member₁ member₂
      exact absurd (member₁.trans member₂.symm) different
  | _ :: _ :: _, _, _ => rfl

theorem uniqueInUse_child (shorts : ∀ digit, (children digit).Short)
    {skipped : Nat} {digit : Nibble} (used : children digit ≠ .null)
    (others : ∀ other, other ≠ digit → children other = .null)
    (last : skipped = 16 ∨ skipped = 255 ∧ value = none) :
    uniqueInUse (enc sha3 (.branch children value)) skipped =
      pure digit.val := by
  have bound := digit.isLt
  rw [uniqueInUse_eq shorts]
  congr 1
  apply uniqueOf_single (by omega)
  intro slot inside
  rw [Bool.and_eq_true, decide_eq_true_eq]
  by_cases below : slot < 16
  · have use := slotInUse_child children value ⟨slot, below⟩
    change slotInUse children value slot = true ↔ _ at use
    rw [use]
    constructor
    · rintro ⟨_, busy⟩
      by_contra different
      refine busy (others _ ?_)
      exact fun equal => different (congrArg Fin.val equal)
    · rintro rfl
      exact ⟨by omega, used⟩
  · obtain rfl : slot = 16 := by omega
    rw [slotInUse_value]
    rcases last with rfl | ⟨_, rfl⟩
    · simp
      omega
    · simp
      omega

theorem uniqueInUse_value (value : TrieValue)
    (unused : ∀ digit, children digit = .null) :
    uniqueInUse (enc sha3 (.branch children (some value))) 255 = pure 16 := by
  rw [uniqueInUse_eq (fun digit => by rw [unused digit]; trivial)]
  congr 1
  apply uniqueOf_single (by omega)
  intro slot inside
  rw [Bool.and_eq_true, decide_eq_true_eq]
  by_cases below : slot < 16
  · have use := slotInUse_child children (some value) ⟨slot, below⟩
    change slotInUse children (some value) slot = true ↔ _ at use
    rw [use]
    have empty := unused ⟨slot, below⟩
    simp [empty]
    omega
  · obtain rfl : slot = 16 := by omega
    rw [slotInUse_value]
    simp

theorem uniqueInUse_crowded (shorts : ∀ digit, (children digit).Short)
    (crowded : Crowded children value) :
    uniqueInUse (enc sha3 (.branch children value)) 255 = pure 255 := by
  rw [uniqueInUse_eq shorts]
  congr 1
  have busy : ∀ digit : Nibble, children digit ≠ .null →
      (decide (digit.val ≠ 255) && slotInUse children value digit.val) =
        true := by
    intro digit used
    have bound := digit.isLt
    rw [Bool.and_eq_true, decide_eq_true_eq]
    exact ⟨by omega, (slotInUse_child children value digit).mpr used⟩
  rcases crowded with ⟨one, two, different, used₁, used₂⟩ |
    ⟨present, one, used⟩
  · exact uniqueOf_several (by omega) (by omega)
      (fun equal => different (Fin.ext equal)) (busy one used₁)
      (busy two used₂)
  · have bound := one.isLt
    refine uniqueOf_several (by omega) (show 16 < 17 by omega) (by omega)
      (busy one used) ?_
    rw [slotInUse_value]
    cases value with
    | none => exact absurd rfl present
    | some held => rfl

/-- The value slot left aside, two children are in use. -/
theorem uniqueInUse_children (shorts : ∀ digit, (children digit).Short)
    (crowded : Crowded children none) :
    uniqueInUse (enc sha3 (.branch children value)) 16 = pure 255 := by
  rw [uniqueInUse_eq shorts]
  congr 1
  have busy : ∀ digit : Nibble, children digit ≠ .null →
      (decide (digit.val ≠ 16) && slotInUse children value digit.val) =
        true := by
    intro digit used
    have bound := digit.isLt
    rw [Bool.and_eq_true, decide_eq_true_eq]
    exact ⟨by omega, (slotInUse_child children value digit).mpr used⟩
  rcases crowded with ⟨one, two, different, used₁, used₂⟩ | ⟨present, _⟩
  · exact uniqueOf_several (by omega) (by omega)
      (fun equal => different (Fin.ext equal)) (busy one used₁)
      (busy two used₂)
  · exact absurd rfl present

end Slots

/-! ## Joining pairs -/

/-- The number of items of a node that is not empty. -/
def nodeItems : Node → Nat
  | .branch _ _ => 17
  | _ => 2

theorem itemCount_enc {node : Node} (short : node.Short)
    (nonempty : node ≠ .null) :
    ofRLP (RLP.itemCount (enc sha3 node)) = pure (nodeItems node) := by
  cases node with
  | null => exact absurd rfl nonempty
  | leaf key value =>
      exact itemCount_pair (small_pair true short (encode_value_length value))
  | ext key child =>
      have bound := encode_reference_length sha3 (item sha3 child)
      exact itemCount_pair (small_pair false short.1 (by omega))
  | branch children value =>
      exact itemCount_branch (small_branch_ref sha3 children value)

theorem run_isTwoItemNode {node : Node} (sound : Sound sha3 occurring trie)
    (stored : StoredRef sha3 trie node) (short : node.Short)
    (nonempty : node ≠ .null) :
    (isTwoItemNode (ref sha3 node).encode).run trie =
      .ok (nodeItems node == 2) trie := by
  unfold isTwoItemNode
  by_cases inline : (enc sha3 node).length < 32
  · obtain ⟨items, listed, _⟩ := exists_items sha3 nonempty
    have data : RLP.isData (item sha3 node).encode = false := by
      rw [listed]
      exact isData_encode_list (small_items short listed)
    have list : RLP.isList (item sha3 node).encode = true :=
      isList_enc short nonempty
    have count : ofRLP (RLP.itemCount (item sha3 node).encode) =
        pure (nodeItems node) := itemCount_enc short nonempty
    rw [ref_inline sha3 inline, data, if_neg Bool.false_ne_true, list,
      if_pos rfl, count]
    rfl
  · obtain ⟨_, data, _, hash⟩ := read_hash (sha3 (enc sha3 node))
    rw [ref_hashed sha3 inline, data, if_pos rfl, hash, ofRLP_ok, pure_bind,
      EStateM.run_bind, node_of_holds sound (stored.1 inline)]
    simp only [rlpOf_enc short, pure_bind, itemCount_enc short nonempty]
    rfl

/-- `takeChild` consumes the reference to the child. -/
theorem runs_takeChild {node : Node} (sound : Sound sha3 occurring trie)
    (stored : StoredRef sha3 trie node) (short : node.Short)
    (nonempty : node ≠ .null) :
    Runs occurring (takeChild (ref sha3 node).encode) trie fun text after =>
      text = enc sha3 node ∧ Follows sha3 occurring trie after ∧
        Balance trie after (own sha3 node) 0 := by
  unfold takeChild own
  by_cases inline : (enc sha3 node).length < 32
  · have list : RLP.isList (item sha3 node).encode = true :=
      isList_enc short nonempty
    rw [ref_inline sha3 inline, list, if_pos rfl, if_pos inline]
    exact Ensures.pure ⟨rfl, .refl sound, .refl 0⟩
  · obtain ⟨list, _, _, hash⟩ := read_hash (sha3 (enc sha3 node))
    rw [ref_hashed sha3 inline, list, if_neg Bool.false_ne_true, hash,
      ofRLP_ok, pure_bind, if_neg inline]
    refine Ensures.bind_of_run (node_of_holds sound (stored.1 inline)) ?_
    refine Ensures.bind (runs_forceKillNode sound _) ?_
    rintro _ after ⟨follows, balance⟩
    rw [rlpOf_enc short]
    exact Ensures.pure ⟨rfl, follows, balance⟩

variable (sha3) in
/-- What a pair has below its key. -/
theorem exists_pair {node : Node} (pair : nodeItems node = 2)
    (nonempty : node ≠ .null) :
    ∃ below leaf second, enc sha3 node =
        (pairItem below leaf second).encode ∧
      (∀ key, enc sha3 (Trie.graft key node) =
        (pairItem (key ++ below) leaf second).encode) ∧
      (∀ key, Short (Trie.graft key node) → (key ++ below).length < 2 ^ 32) ∧
      second.encode.length < 2 ^ 57 ∧
      (∀ key, refs sha3 (Trie.graft key node) = refs sha3 node) ∧
      (∀ key trie, Stored sha3 trie node →
        Stored sha3 trie (Trie.graft key node)) := by
  cases node with
  | null => exact absurd rfl nonempty
  | leaf below value =>
      exact ⟨below, true, .data value.val, rfl, fun _ => rfl,
        fun _ short => short, encode_value_length value, fun _ => rfl,
        fun _ _ stored => stored⟩
  | ext below child =>
      have bound := encode_reference_length sha3 (item sha3 child)
      exact ⟨below, false, ref sha3 child, rfl, fun _ => rfl,
        fun _ short => short.1, Nat.lt_of_le_of_lt bound (by decide),
        fun _ => rfl, fun _ _ stored => stored⟩
  | branch children value => simp [nodeItems] at pair

theorem runs_graft {key : List Nibble} {node : Node}
    (sound : Sound sha3 occurring trie) (stored : StoredRef sha3 trie node)
    (shortKey : key.length < 2 ^ 32) (short : node.Short)
    (short' : Short (Trie.graft key node)) (nonempty : node ≠ .null)
    (pair : nodeItems node = 2) :
    Runs occurring (graft (enc sha3 (.ext key node))) trie fun text after =>
      text = enc sha3 (Trie.graft key node) ∧
        Follows sha3 occurring trie after ∧
        Balance trie after (own sha3 node) 0 := by
  obtain ⟨below, leaf, second, view, grafted, bounds, size, _⟩ :=
    exists_pair sha3 pair nonempty
  have bound := encode_reference_length sha3 (item sha3 node)
  have small : SmallPair key false (ref sha3 node) :=
    small_pair false shortKey (Nat.lt_of_le_of_lt bound (by decide))
  have longKey := bounds key short'
  have small' : SmallPair (key ++ below) leaf second :=
    small_pair leaf longKey size
  have smallBelow : SmallPair below leaf second :=
    small_pair leaf (by
      rw [List.length_append] at longKey
      omega) size
  have above : enc sha3 (.ext key node) =
      (pairItem key false (ref sha3 node)).encode := rfl
  have written : rlpList
      (RLPStream.append ((keySlice key false).hexPrefixEncodeWith
        (keySlice below leaf) leaf))
      (RLPStream.appendRaw second.encode 1) =
        pure (enc sha3 (Trie.graft key node)) := by
    rw [NibbleSlice.hexPrefixEncodeWith_eq leaf (valid_keySlice _ _)
      (valid_keySlice _ _), toList_keySlice, toList_keySlice, grafted]
    exact rlpList_eq (appends_append _) (appends_appendRaw _) small'
  rw [above, graft]
  simp only [itemCount_pair small, isList_pair small, pure_bind,
    beq_self_eq_true, Bool.and_self, assert_true, itemAt_pair_second small]
  refine Ensures.bind (runs_takeChild sound stored short nonempty) ?_
  rintro text after ⟨rfl, follows, balance⟩
  rw [view]
  simp only [itemCount_pair smallBelow, pure_bind, beq_self_eq_true,
    assert_true, keyOf_pair small, keyOf_pair smallBelow,
    isLeaf_pair smallBelow, itemAt_pair_second smallBelow, written]
  exact Ensures.pure ⟨rfl, follows, balance⟩

/-- The way from a pair above a node to the two joined, if the node is a
pair itself. -/
theorem runs_joined {key : List Nibble} {node : Node} {method : TrieM Bytes}
    [Keeps method] (sound : Sound sha3 occurring trie)
    (stored : StoredRef sha3 trie node) (shortKey : key.length < 2 ^ 32)
    (short : node.Short) (short' : Short (Trie.graft key node))
    (nonempty : node ≠ .null)
    (joins : nodeItems node = 2 →
      method = graft (enc sha3 (.ext key node)))
    (returns : nodeItems node ≠ 2 → method = pure (enc sha3 (.ext key node))) :
    Runs occurring method trie fun text after =>
      text = enc sha3 (Trie.graft key node) ∧
        Follows sha3 occurring trie after ∧
        Stored sha3 after (Trie.graft key node) ∧
        Balance trie after (own sha3 node + refs sha3 node)
          (refs sha3 (Trie.graft key node)) := by
  by_cases pair : nodeItems node = 2
  · obtain ⟨_, _, _, _, _, _, _, sameRefs, keepsStored⟩ :=
      exists_pair sha3 pair nonempty
    rw [joins pair]
    refine (runs_graft sound stored shortKey short short' nonempty pair).mono
      ?_
    rintro text after ⟨rfl, follows, balance⟩
    refine ⟨rfl, follows, (keepsStored key trie stored.2).mono follows.keeps,
      ?_⟩
    rw [sameRefs]
    simpa using balance.frame (refs sha3 node)
  · rw [returns pair]
    cases node with
    | null => exact absurd rfl nonempty
    | leaf below value => exact absurd rfl pair
    | ext below child => exact absurd rfl pair
    | branch children value =>
        exact Ensures.pure ⟨rfl, .refl sound, stored, .refl _⟩

/-! ## Merging a branch -/

section Merging

variable {children : Nibble → Node} {value : Option TrieValue}

theorem mergeKey_digit : ∀ digit : Nibble,
    hexPrefixEncodeRef [UInt8.ofNat digit.val] false 1 2 0 =
      hexPrefix [digit] false := by
  decide

theorem merge_child {digit : Nibble} (short : (children digit).Short)
    (used : children digit ≠ .null) :
    merge (enc sha3 (.branch children value)) digit.val =
      pure (enc sha3 (.ext [digit] (children digit))) := by
  have bound := digit.isLt
  have small := small_branch_ref sha3 children value
  have size := encode_reference_length sha3 (item sha3 (children digit))
  have view : enc sha3 (.branch children value) =
      (branchItem (fun digit => ref sha3 (children digit))
        (slotBytes value)).encode := rfl
  have child : ¬ digit.val = 16 := by omega
  have written : rlpList (RLPStream.append (hexPrefix [digit] false))
      (RLPStream.appendRaw (ref sha3 (children digit)).encode 1) =
        pure (enc sha3 (.ext [digit] (children digit))) :=
    rlpList_eq (appends_append _) (appends_appendRaw _)
      (small_pair false (by simp) (Nat.lt_of_le_of_lt size (by decide)))
  rw [view, merge, mergeKey]
  simp only [itemCount_branch small, isList_branch small, pure_bind,
    beq_self_eq_true, Bool.and_self, assert_true, itemAt_branch small digit,
    child, ne_eq, not_false_eq_true, if_true, isEmpty_ref short used,
    Bool.not_false, mergeKey_digit, written]

theorem merge_value (value : TrieValue) :
    merge (enc sha3 (.branch children (some value))) 16 =
      pure (enc sha3 (.leaf [] value)) := by
  have small := small_branch_ref sha3 children (some value)
  have view : enc sha3 (.branch children (some value)) =
      (branchItem (fun digit => ref sha3 (children digit))
        (slotBytes (some value))).encode := rfl
  have key : hexPrefixEncodeVector [] true = hexPrefix [] true := by decide
  have written : rlpList (RLPStream.append (hexPrefix [] true))
      (RLPStream.appendRaw (Item.data value.val).encode 1) =
        pure (enc sha3 (.leaf [] value)) :=
    rlpList_eq (appends_append _) (appends_appendRaw _)
      (small_pair true (by simp) (encode_value_length value))
  rw [view, merge, mergeKey]
  simp only [itemCount_branch small, isList_branch small, pure_bind,
    beq_self_eq_true, Bool.and_self, assert_true, itemAt_branch_value small,
    ne_eq, not_true_eq_false, if_false, key]
  exact written

/-- A branch merged into its only child. -/
theorem runs_mergeUnique {digit : Nibble}
    (sound : Sound sha3 occurring trie)
    (stored : StoredRef sha3 trie (children digit))
    (short : (children digit).Short)
    (short' : Short (Trie.graft [digit] (children digit)))
    (used : children digit ≠ .null) :
    Runs occurring
      (mergeUnique (enc sha3 (.branch children value)) digit.val) trie
      fun text after =>
        text = enc sha3 (Trie.graft [digit] (children digit)) ∧
        Follows sha3 occurring trie after ∧
        Stored sha3 after (Trie.graft [digit] (children digit)) ∧
        Balance trie after
          (own sha3 (children digit) + refs sha3 (children digit))
          (refs sha3 (Trie.graft [digit] (children digit))) := by
  have read : itemAt (enc sha3 (.branch children value)) digit.val =
      pure (ref sha3 (children digit)).encode :=
    itemAt_branch (small_branch_ref sha3 children value) digit
  have shortAbove : Short (.ext [digit] (children digit)) :=
    ⟨by simp, short⟩
  unfold mergeUnique
  rw [read, pure_bind]
  refine Ensures.bind_of_run (run_isTwoItemNode sound stored short used) ?_
  simp only [merge_child short used, pure_bind, rlpOf_enc shortAbove]
  refine runs_joined sound stored (by simp) short short' used ?_ ?_
  · intro pair
    rw [pair]
    rfl
  · intro several
    rw [if_neg (by simpa using several)]

end Merging

end Aecmio
