import Aecmio.Rlp.Reading
import Aecmio.Trie.Encoding
import Aecmio.Trie.History

/-!
# The trie code on encoded nodes

Reading and writing single nodes: on the encoding of a node each reader
returns the corresponding part of it, and each writer returns the encoding of
the node put together.  None of them touches the database, so they are
equations between programs.
-/

namespace Aecmio

open Item TrieM

namespace TrieM

variable {α : Type}

@[simp] theorem ofRLP_ok (value : α) : ofRLP (.ok value) = pure value := rfl

@[simp] theorem assert_true : assert true = pure () := rfl

@[simp] theorem inRange_some (value : α) : inRange (some value) = pure value :=
  rfl

end TrieM

/-! ## Reading lists -/

section Lists

variable {items : List Item}

theorem isList_encode_list (small : (encodeAll items).length < RLP.readLimit) :
    RLP.isList (Item.list items).encode = true := by
  simpa [encode] using RLP.isList_encodeList [] small

theorem isData_encode_list (small : (encodeAll items).length < RLP.readLimit) :
    RLP.isData (Item.list items).encode = false := by
  simpa [encode] using RLP.isData_encodeList [] small

theorem isEmpty_encode_list
    (small : (encodeAll items).length < RLP.readLimit)
    (nonempty : items ≠ []) : RLP.isEmpty (Item.list items).encode = false := by
  have empty := RLP.isEmpty_encodeList [] small
  rw [List.append_nil] at empty
  rw [encode, empty]
  cases items with
  | nil => exact absurd rfl nonempty
  | cons item items => simp [encodeAll]

theorem isNull_encode (item : Item) : RLP.isNull item.encode = false := by
  simp [RLP.isNull]

theorem rlpOf_encode {item : Item} (small : RLP.Readable item) :
    rlpOf item.encode = pure item.encode := by
  rw [rlpOf, RLP.construct_encode small, ofRLP_ok]

theorem itemAt_encode_list {slot : Nat} {item : Item}
    (found : items[slot]? = some item)
    (small : (encodeAll items).length < RLP.readLimit) :
    itemAt (Item.list items).encode slot = pure item.encode := by
  obtain ⟨inside, here⟩ := List.getElem?_eq_some_iff.mp found
  rw [itemAt, RLP.at_encode_list inside small, here, ofRLP_ok]

theorem itemCount_encode_list
    (small : (encodeAll items).length < RLP.readLimit) :
    ofRLP (RLP.itemCount (Item.list items).encode) = pure items.length := by
  rw [RLP.itemCount_encode_list small, ofRLP_ok]

theorem nodeCount_encode_list
    (small : (encodeAll items).length < RLP.readLimit)
    (count : items.length = 2 ∨ items.length = 17) :
    nodeCount (Item.list items).encode = pure items.length := by
  have checked : (items.length == 2 || items.length == 17) = true := by
    simpa using count
  simp [nodeCount, itemCount_encode_list small, isList_encode_list small,
    checked]

end Lists

/-! ## Reading pairs -/

namespace Node

/-- The slice that `keyOf` reads from a pair. -/
def keySlice (key : List Nibble) (leaf : Bool) : NibbleSlice :=
  keyOfHexPrefix (hexPrefix key leaf)

@[simp] theorem toList_keySlice (key : List Nibble) (leaf : Bool) :
    (keySlice key leaf).toList = key :=
  (keyOfHexPrefix_hexPrefix key leaf).1

theorem valid_keySlice (key : List Nibble) (leaf : Bool) :
    (keySlice key leaf).Valid :=
  (keyOfHexPrefix_hexPrefix key leaf).2

section Pairs

variable {key : List Nibble} {leaf : Bool} {second : Item}

/-- The size condition of a pair. -/
abbrev SmallPair (key : List Nibble) (leaf : Bool) (second : Item) : Prop :=
  (encodeAll [.data (hexPrefix key leaf), second]).length < RLP.readLimit

theorem hexPrefix_small (small : SmallPair key leaf second) :
    (hexPrefix key leaf).length < RLP.readLimit := by
  have bound := length_le_encodeData (hexPrefix key leaf)
  simp only [SmallPair, encodeAll, encode, List.length_append] at small
  omega

theorem itemAt_pair_first (small : SmallPair key leaf second) :
    itemAt (pairItem key leaf second).encode 0 =
      pure (Item.data (hexPrefix key leaf)).encode :=
  itemAt_encode_list rfl small

theorem itemAt_pair_second (small : SmallPair key leaf second) :
    itemAt (pairItem key leaf second).encode 1 = pure second.encode :=
  itemAt_encode_list rfl small

theorem itemCount_pair (small : SmallPair key leaf second) :
    ofRLP (RLP.itemCount (pairItem key leaf second).encode) = pure 2 :=
  itemCount_encode_list small

theorem isList_pair (small : SmallPair key leaf second) :
    RLP.isList (pairItem key leaf second).encode = true :=
  isList_encode_list small

theorem isEmpty_pair (small : SmallPair key leaf second) :
    RLP.isEmpty (pairItem key leaf second).encode = false :=
  isEmpty_encode_list small (by simp)

theorem nodeCount_pair (small : SmallPair key leaf second) :
    nodeCount (pairItem key leaf second).encode = pure 2 :=
  nodeCount_encode_list small (.inl rfl)

theorem keyOf_pair (small : SmallPair key leaf second) :
    keyOf (pairItem key leaf second).encode = pure (keySlice key leaf) := by
  simp [keyOf, itemAt_pair_first small, encode,
    RLP.payload_encodeData (hexPrefix_small small), keySlice]

theorem isLeaf_pair (small : SmallPair key leaf second) :
    isLeaf (pairItem key leaf second).encode = pure leaf := by
  obtain ⟨first, rest, text, flag⟩ := head_hexPrefix key leaf
  have head : (hexPrefix key leaf).head? = some first := by rw [text]; rfl
  simp [isLeaf, itemCount_pair small, isList_pair small,
    itemAt_pair_first small, encode,
    RLP.payload_encodeData (hexPrefix_small small), head, flag]

theorem andLeaf_pair (small : SmallPair key leaf second) (condition : Bool)
    (expected : Bool) :
    andLeaf condition (pairItem key leaf second).encode expected =
      pure (condition && leaf == expected) := by
  cases condition <;> simp [andLeaf, isLeaf_pair small]

end Pairs

/-! ## Reading branches -/

section Branches

variable {children : Nibble → Item} {value : Bytes}

abbrev SmallBranch (children : Nibble → Item) (value : Bytes) : Prop :=
  (encodeAll (branchItems children value)).length < RLP.readLimit

abbrev branchItem (children : Nibble → Item) (value : Bytes) : Item :=
  .list (branchItems children value)

@[simp] theorem length_branchItems (children : Nibble → Item)
    (value : Bytes) : (branchItems children value).length = 17 := by
  simp [branchItems]

theorem getElem?_branchItems (digit : Nibble) :
    (branchItems children value)[digit.val]? = some (children digit) := by
  rw [branchItems, List.getElem?_append_left
    (by rw [List.length_ofFn]; exact digit.isLt), List.getElem?_ofFn]
  simp

theorem getElem?_branchItems_value :
    (branchItems children value)[16]? = some (.data value) := by
  rw [branchItems, List.getElem?_append_right (by rw [List.length_ofFn]),
    List.length_ofFn]
  rfl

/-- One child exchanged. -/
theorem branchItems_update (digit : Nibble) (child : Item) :
    branchItems (Function.update children digit child) value =
      (branchItems children value).take digit.val ++
        child :: (branchItems children value).drop (digit.val + 1) := by
  have exchanged : branchItems (Function.update children digit child) value =
      (branchItems children value).set digit.val child := by
    apply List.ext_getElem?
    intro slot
    rw [List.getElem?_set]
    by_cases inside : slot < 16
    · have read : (branchItems (Function.update children digit child)
          value)[slot]? = some (Function.update children digit child
            ⟨slot, inside⟩) := getElem?_branchItems ⟨slot, inside⟩
      have old : (branchItems children value)[slot]? =
          some (children ⟨slot, inside⟩) :=
        getElem?_branchItems ⟨slot, inside⟩
      by_cases same : digit.val = slot
      · have equal : (⟨slot, inside⟩ : Nibble) = digit :=
          Fin.ext same.symm
        have bound : slot < (branchItems children value).length := by
          rw [length_branchItems]
          omega
        rw [if_pos same, if_pos (by omega), read, equal,
          Function.update_self]
      · have different : (⟨slot, inside⟩ : Nibble) ≠ digit := by
          intro equal
          exact same (by rw [← equal])
        rw [if_neg same, read, old, Function.update_of_ne different]
    · have other : digit.val ≠ slot := by
        have bound := digit.isLt
        omega
      rw [if_neg other]
      by_cases last : slot = 16
      · subst last
        rw [getElem?_branchItems_value, getElem?_branchItems_value]
      · rw [List.getElem?_eq_none (by rw [length_branchItems]; omega),
          List.getElem?_eq_none (by rw [length_branchItems]; omega)]
  rw [exchanged, List.set_eq_take_append_cons_drop, if_pos]
  rw [length_branchItems]
  omega

theorem itemAt_branch (small : SmallBranch children value)
    (digit : Nibble) :
    itemAt (branchItem children value).encode digit.val =
      pure (children digit).encode :=
  itemAt_encode_list (getElem?_branchItems digit) small

theorem itemAt_branch_value (small : SmallBranch children value) :
    itemAt (branchItem children value).encode 16 =
      pure (Item.data value).encode :=
  itemAt_encode_list getElem?_branchItems_value small

theorem isList_branch (small : SmallBranch children value) :
    RLP.isList (branchItem children value).encode = true :=
  isList_encode_list small

theorem isEmpty_branch (small : SmallBranch children value) :
    RLP.isEmpty (branchItem children value).encode = false :=
  isEmpty_encode_list small (by simp [branchItems])

theorem itemCount_branch (small : SmallBranch children value) :
    ofRLP (RLP.itemCount (branchItem children value).encode) = pure 17 := by
  rw [itemCount_encode_list small, length_branchItems]

theorem nodeCount_branch (small : SmallBranch children value) :
    nodeCount (branchItem children value).encode = pure 17 := by
  rw [nodeCount_encode_list small (.inr (by simp)), length_branchItems]

end Branches

end Node

/-! ## Writing lists -/

/-- The stream after `done` of `total` items have been appended. -/
def building (total : Nat) (done : List Item) : RLPStream :=
  if done.length < total then
    ⟨encodeAll done, [(total - done.length, 0)]⟩
  else ⟨(Item.list done).encode, []⟩

theorem ofCount_building {total : Nat} (positive : 0 < total) :
    RLPStream.ofCount total = .ok (building total []) := by
  have nonzero : total ≠ 0 := by omega
  simp [RLPStream.ofCount, RLPStream.appendList, building, nonzero, positive,
    encodeAll]

theorem appendRaw_building {total : Nat} {done : List Item} {item : Item}
    (missing : done.length < total)
    (small : (encodeAll (done ++ [item])).length < sizeTRange) :
    (building total done).appendRaw item.encode 1 =
      .ok (building total (done ++ [item])) := by
  have content : encodeAll (done ++ [item]) = encodeAll done ++ item.encode := by
    simp [encodeAll_append, encodeAll]
  unfold building
  rw [if_pos missing]
  by_cases last : done.length + 1 < total
  · have longer : (done ++ [item]).length < total := by simpa using last
    obtain ⟨more, split⟩ : ∃ more, total - done.length = more + 2 :=
      ⟨total - done.length - 2, by omega⟩
    rw [if_pos longer, split, RLPStream.appendRaw_open, content]
    simp
    omega
  · have complete : ¬ (done ++ [item]).length < total := by simpa using last
    have one : total - done.length = 1 := by omega
    rw [content] at small
    rw [if_neg complete, one]
    have closed : RLPStream.appendRaw item.encode 1
        ⟨[] ++ encodeAll done, [(1, ([] : Bytes).length)]⟩ =
          RLPStream.appendRaw (encodeList (encodeAll done ++ item.encode)) 1
            ⟨[], []⟩ := RLPStream.appendRaw_last small
    rw [List.nil_append, List.length_nil] at closed
    rw [closed]
    simp [RLPStream.appendRaw, RLPStream.noteAppended,
      RLPStream.noteAppendedLoop, encode, content, bind, Except.bind, pure,
      Except.pure]

theorem append_building {total : Nat} {done : List Item} {content : Bytes}
    (missing : done.length < total)
    (small : (encodeAll (done ++ [.data content])).length < sizeTRange) :
    (building total done).append content =
      .ok (building total (done ++ [.data content])) := by
  have bound : content.length < sizeTRange := by
    have inner := length_le_encodeData content
    simp only [encodeAll_append, encodeAll, encode, List.length_append,
      List.append_nil] at small
    omega
  rw [RLPStream.append_eq bound]
  exact appendRaw_building missing small

theorem result_building (items : List Item) :
    (building items.length items).result = .ok (Item.list items).encode := by
  simp [building, RLPStream.result]

theorem sizeTRange_of_readLimit {size : Nat} (small : size < RLP.readLimit) :
    size < sizeTRange := by
  rw [RLP.readLimit_eq] at small
  rw [sizeTRange_eq]
  omega

/-- What is written of a list is no longer than the list. -/
theorem small_prefix {before after : List Item}
    (small : (encodeAll (before ++ after)).length < RLP.readLimit) :
    (encodeAll before).length < sizeTRange := by
  apply sizeTRange_of_readLimit
  rw [encodeAll_append, List.length_append] at small
  omega

theorem small_first {first second : Item}
    (small : (encodeAll [first, second]).length < RLP.readLimit) :
    (encodeAll [first]).length < sizeTRange :=
  small_prefix (show (encodeAll ([first] ++ [second])).length <
    RLP.readLimit from small)

/-- An argument of `rlpList` that appends `item`. -/
def Appends (write : RLPStream → Except RLPError RLPStream) (item : Item) :
    Prop :=
  ∀ total done, done.length < total →
    (encodeAll (done ++ [item])).length < sizeTRange →
      write (building total done) = .ok (building total (done ++ [item]))

theorem appends_append (content : Bytes) :
    Appends (RLPStream.append content) (.data content) :=
  fun _ _ missing small => append_building missing small

theorem appends_appendRaw (item : Item) :
    Appends (RLPStream.appendRaw item.encode 1) item :=
  fun _ _ missing small => appendRaw_building missing small

theorem rlpList_eq {write₁ write₂ : RLPStream → Except RLPError RLPStream}
    {first second : Item} (appends₁ : Appends write₁ first)
    (appends₂ : Appends write₂ second)
    (small : (encodeAll [first, second]).length < RLP.readLimit) :
    rlpList write₁ write₂ = pure (Item.list [first, second]).encode := by
  have one := appends₁ 2 [] (by simp) (small_first small)
  have two := appends₂ 2 [first] (by simp)
    (sizeTRange_of_readLimit small)
  have done := result_building [first, second]
  simp only [List.nil_append, List.cons_append, List.length_cons,
    List.length_nil] at one two done
  simp [rlpList, ofCount_building, one, two, done]

/-! ## Copying items -/

/-- A loop that appends the items from `start` on, `count` of them, whatever
it keeps around the stream. -/
theorem foldlM_copy {β : Type} {step : β → Nat → TrieM β}
    (wrap : RLPStream → β) {items written : List Item}
    {start count total : Nat}
    (copies : ∀ stream slot, start ≤ slot → slot < start + count →
      step (wrap stream) slot = do
        let entry ← itemAt (Item.list items).encode slot
        let stream ← ofRLP (stream.appendRaw entry 1)
        return wrap stream)
    (inside : start + count ≤ items.length)
    (small : (encodeAll items).length < RLP.readLimit)
    (room : written.length + count ≤ total)
    (fits : (encodeAll (written ++ (items.drop start).take count)).length <
      sizeTRange) :
    (List.range' start count).foldlM step (wrap (building total written)) =
      pure (wrap
        (building total (written ++ (items.drop start).take count))) := by
  induction count generalizing start written with
  | zero => simp
  | succ count induction =>
      have here : start < items.length := by omega
      have split : (items.drop start).take (count + 1) =
          items[start] :: (items.drop (start + 1)).take count := by
        rw [List.drop_eq_getElem_cons here, List.take_succ_cons]
      have whole : written ++ (items.drop start).take (count + 1) =
          (written ++ [items[start]]) ++
            (items.drop (start + 1)).take count := by
        simp [split]
      rw [whole] at fits ⊢
      have written' : (encodeAll (written ++ [items[start]])).length <
          sizeTRange := by
        rw [encodeAll_append, List.length_append] at fits
        omega
      have read := itemAt_encode_list (List.getElem?_eq_getElem here) small
      have append := appendRaw_building
        (show written.length < total by omega) written'
      have rest := induction
        (fun stream slot lower upper =>
          copies stream slot (by omega) (by omega))
        (show start + 1 + count ≤ items.length by omega)
        (show (written ++ [items[start]]).length + count ≤ total by
          simp
          omega) fits
      rw [List.range'_succ, List.foldlM_cons,
        copies _ start (Nat.le_refl _) (by omega)]
      simp only [read, pure_bind, append, ofRLP_ok, rest]

theorem copyItems_eq {items written : List Item} {count total : Nat}
    (inside : count ≤ items.length)
    (small : (encodeAll items).length < RLP.readLimit)
    (room : written.length + count ≤ total)
    (fits : (encodeAll (written ++ items.take count)).length < sizeTRange) :
    copyItems (Item.list items).encode (List.range count)
        (building total written) =
      pure (building total (written ++ items.take count)) := by
  have copied : (List.range' 0 count).foldlM
      (fun stream slot => do
        ofRLP (stream.appendRaw (← itemAt (Item.list items).encode slot) 1))
      (id (building total written)) =
        pure (id (building total
          (written ++ (items.drop 0).take count))) :=
    foldlM_copy id (by simp) (by omega) small room (by simpa using fits)
  rw [← List.range_eq_range'] at copied
  simpa [copyItems] using copied

/-! ## References -/

namespace Node

variable (sha3 : Bytes → H256)

theorem ref_inline {node : Node} (inline : (enc sha3 node).length < 32) :
    ref sha3 node = item sha3 node := by
  unfold ref reference
  exact if_pos inline

theorem ref_hashed {node : Node} (large : ¬ (enc sha3 node).length < 32) :
    ref sha3 node = .data (sha3 (enc sha3 node)).val := by
  unfold ref reference
  exact if_neg large

theorem enc_null : enc sha3 .null = [0x80] := rfl

theorem ref_null : ref sha3 .null = .data [] :=
  ref_inline sha3 (by rw [enc_null]; decide)

/-- The nodes other than the empty one are lists. -/
theorem exists_items {node : Node} (nonempty : node ≠ .null) :
    ∃ items, item sha3 node = .list items ∧ items ≠ [] := by
  cases node with
  | null => exact absurd rfl nonempty
  | leaf key value => exact ⟨_, rfl, by simp⟩
  | ext key child => exact ⟨_, rfl, by simp⟩
  | branch children value => exact ⟨_, rfl, by simp [branchItems]⟩

variable {sha3} {node : Node}

theorem small_items {items : List Item} (short : node.Short)
    (listed : item sha3 node = .list items) :
    (encodeAll items).length < RLP.readLimit := by
  have readable := readable_item sha3 short
  rwa [listed] at readable

theorem isEmpty_enc (short : node.Short) (nonempty : node ≠ .null) :
    RLP.isEmpty (enc sha3 node) = false := by
  obtain ⟨items, listed, filled⟩ := exists_items sha3 nonempty
  rw [enc, listed]
  exact isEmpty_encode_list (small_items short listed) filled

theorem isList_enc (short : node.Short) (nonempty : node ≠ .null) :
    RLP.isList (enc sha3 node) = true := by
  obtain ⟨items, listed, _⟩ := exists_items sha3 nonempty
  rw [enc, listed]
  exact isList_encode_list (small_items short listed)

theorem rlpOf_enc (short : node.Short) :
    rlpOf (enc sha3 node) = pure (enc sha3 node) :=
  rlpOf_encode (readable_item sha3 short)

theorem hash_small (hash : H256) : hash.val.length < RLP.readLimit := by
  rw [hash.property, RLP.readLimit_eq]
  decide

/-- A hash is read as data, not as a list or as empty. -/
theorem read_hash (hash : H256) :
    RLP.isList (Item.data hash.val).encode = false ∧
      RLP.isData (Item.data hash.val).encode = true ∧
      RLP.isEmpty (Item.data hash.val).encode = false ∧
      RLP.toHash 32 (Item.data hash.val).encode = .ok hash := by
  have small := hash_small hash
  have list := RLP.isList_encodeData [] small
  have data := RLP.isData_encodeData [] small
  have empty := RLP.isEmpty_encodeData [] small
  rw [List.append_nil] at list data empty
  refine ⟨list, data, ?_, ?_⟩
  · rw [encode, empty]
    have length : hash.val.length = 32 := hash.property
    cases content : hash.val with
    | nil =>
        rw [content] at length
        simp at length
    | cons first rest => rfl
  · exact RLP.toHash_encodeData_hash hash (by rw [RLP.readLimit_eq]; decide)

variable (sha3) in
/-- A branch written anew with another value. -/
theorem copy_with_value (children : Nibble → Node)
    (old new : Option TrieValue) :
    (ofRLP (RLPStream.ofCount 17) >>= fun stream =>
      copyItems (enc sha3 (.branch children old)) (List.range 16) stream >>=
        fun stream => ofRLP (stream.append (slotBytes new)) >>=
          fun stream => ofRLP stream.result) =
      pure (enc sha3 (.branch children new)) := by
  have small := small_branch_ref sha3 children old
  have small' := small_branch_ref sha3 children new
  have taken : (branchItems (fun digit => ref sha3 (children digit))
      (slotBytes old)).take 16 =
        List.ofFn fun digit => ref sha3 (children digit) := by
    rw [branchItems, List.take_left' (by rw [List.length_ofFn])]
  have copied : copyItems (enc sha3 (.branch children old))
      (List.range 16) (building 17 []) =
        pure (building 17
          (List.ofFn fun digit => ref sha3 (children digit))) := by
    have raw := copyItems_eq (show 16 ≤ (branchItems
        (fun digit => ref sha3 (children digit)) (slotBytes old)).length by
      rw [length_branchItems]
      omega) small (show ([] : List Item).length + 16 ≤ 17 by simp) (by
        rw [List.nil_append, taken]
        exact small_prefix small')
    rw [List.nil_append, taken] at raw
    exact raw
  have last : (building 17
      (List.ofFn fun digit => ref sha3 (children digit))).append
        (slotBytes new) =
          .ok (building 17 (branchItems
            (fun digit => ref sha3 (children digit)) (slotBytes new))) :=
    append_building (by rw [List.length_ofFn]; omega)
      (sizeTRange_of_readLimit small')
  have done := result_building (branchItems
    (fun digit => ref sha3 (children digit)) (slotBytes new))
  rw [length_branchItems] at done
  rw [ofCount_building (by decide)]
  simp only [ofRLP_ok, pure_bind, copied, last, done]
  rfl

end Node

end Aecmio
