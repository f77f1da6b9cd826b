import Aecmio.Trie.Session

/-!
# The root commits to the map

Two tries with one root are the same trie, as long as no two of the node
strings that are hashed collide.  So the root that `trieRootOver` computes
fixes the number of items and every one of them.
-/

namespace Aecmio

open Item

/-- The string of a key tells the key and the kind of its node. -/
theorem hexPrefix_inj {key other : List Nibble} {leaf leaf' : Bool}
    (same : hexPrefix key leaf = hexPrefix other leaf') :
    key = other ∧ leaf = leaf' := by
  constructor
  · have decoded := (keyOfHexPrefix_hexPrefix key leaf).1
    rw [same, (keyOfHexPrefix_hexPrefix other leaf').1] at decoded
    exact decoded.symm
  · obtain ⟨first, rest, text, flag⟩ := head_hexPrefix key leaf
    obtain ⟨first', rest', text', flag'⟩ := head_hexPrefix other leaf'
    rw [text, text'] at same
    obtain ⟨head, -⟩ := List.cons.inj same
    rw [← flag, ← flag', head]

namespace Node

variable (sha3 : Bytes → H256)

/-- The string of a node, where it is hashed. -/
def hashedString (node : Node) : Set Bytes :=
  { text | text = enc sha3 node ∧ 32 ≤ text.length }

/-- The strings that are hashed below a node. -/
def hashedBelow : Node → Set Bytes
  | .null => ∅
  | .leaf _ _ => ∅
  | .ext _ child => hashedString sha3 child ∪ hashedBelow child
  | .branch children _ =>
      { text | ∃ digit, text ∈ hashedString sha3 (children digit) ∪
        hashedBelow (children digit) }

/-- The strings that are hashed for a root. -/
def hashedStrings (node : Node) : Set Bytes :=
  { text | text = enc sha3 node ∨ text ∈ hashedBelow sha3 node }

variable {sha3} {node other : Node}

theorem hashedString_child (children : Nibble → Node)
    (value : Option TrieValue) (digit : Nibble) :
    hashedString sha3 (children digit) ⊆
      hashedBelow sha3 (.branch children value) :=
  fun _ inside => ⟨digit, .inl inside⟩

theorem hashedBelow_child (children : Nibble → Node)
    (value : Option TrieValue) (digit : Nibble) :
    hashedBelow sha3 (children digit) ⊆
      hashedBelow sha3 (.branch children value) :=
  fun _ inside => ⟨digit, .inr inside⟩

theorem item_eq_of_enc (short : node.Short) (short' : other.Short)
    (same : enc sha3 node = enc sha3 other) :
    item sha3 node = item sha3 other := by
  have first := RLP.read_encode (readable_item sha3 short)
  have second := RLP.read_encode (readable_item sha3 short')
  have equal : (item sha3 node).encode = (item sha3 other).encode := same
  rw [equal, second] at first
  exact (Option.some.inj (Except.ok.inj first)).symm

/-- The item of a hash is too long for a node in line. -/
theorem not_inline_hash {hash : H256} (inline : (enc sha3 node).length < 32)
    (same : item sha3 node = .data hash.val) : False := by
  have length : hash.val.length = 32 := hash.property
  have longer := length_le_encodeData hash.val
  have text : enc sha3 node = encodeData hash.val := by
    simp only [enc, same, encode]
  rw [text] at inline
  omega

theorem item_eq_of_ref (short : node.Short) (short' : other.Short)
    (injective : Set.InjOn sha3 (hashedString sha3 node ∪
      hashedString sha3 other))
    (same : ref sha3 node = ref sha3 other) :
    item sha3 node = item sha3 other := by
  by_cases inline : (enc sha3 node).length < 32
  · rw [ref_inline sha3 inline] at same
    by_cases inline' : (enc sha3 other).length < 32
    · rw [ref_inline sha3 inline'] at same
      exact same
    · rw [ref_hashed sha3 inline'] at same
      exact (not_inline_hash inline same).elim
  · rw [ref_hashed sha3 inline] at same
    by_cases inline' : (enc sha3 other).length < 32
    · rw [ref_inline sha3 inline'] at same
      exact (not_inline_hash inline' same.symm).elim
    · rw [ref_hashed sha3 inline'] at same
      have hashes : sha3 (enc sha3 node) = sha3 (enc sha3 other) :=
        Subtype.ext (Item.data.inj same)
      have texts := injective (.inl ⟨rfl, not_lt.mp inline⟩)
        (.inr ⟨rfl, not_lt.mp inline'⟩) hashes
      exact item_eq_of_enc short short' texts

theorem pairItem_inj {key key' : List Nibble} {leaf leaf' : Bool}
    {second second' : Item}
    (same : pairItem key leaf second = pairItem key' leaf' second') :
    key = key' ∧ leaf = leaf' ∧ second = second' := by
  have items := Item.list.inj same
  obtain ⟨first, rest⟩ := List.cons.inj items
  obtain ⟨key, leaf⟩ := hexPrefix_inj (Item.data.inj first)
  exact ⟨key, leaf, (List.cons.inj rest).1⟩

theorem pairItem_ne_branch {key : List Nibble} {leaf : Bool} {second : Item}
    {children : Nibble → Item} {value : Bytes} :
    pairItem key leaf second ≠ .list (branchItems children value) := by
  intro same
  have lengths := congrArg List.length (Item.list.inj same)
  simp [branchItems] at lengths

theorem slotBytes_inj {value value' : Option TrieValue}
    (same : slotBytes value = slotBytes value') : value = value' := by
  cases value with
  | none =>
      cases value' with
      | none => rfl
      | some held => exact absurd same.symm held.property.1
  | some held =>
      cases value' with
      | none => exact absurd same held.property.1
      | some held' => rw [Subtype.ext (show held.val = held'.val from same)]

theorem eq_of_item (short : node.Short) (short' : other.Short)
    (injective : Set.InjOn sha3 (hashedBelow sha3 node ∪
      hashedBelow sha3 other))
    (same : item sha3 node = item sha3 other) : node = other := by
  induction node generalizing other with
  | null =>
      cases other with
      | null => rfl
      | leaf key value => cases same
      | ext key child => cases same
      | branch children value => cases same
  | leaf key value =>
      cases other with
      | null => cases same
      | leaf key' value' =>
          obtain ⟨keys, -, values⟩ := pairItem_inj same
          rw [keys, Subtype.ext (Item.data.inj values)]
      | ext key' child =>
          obtain ⟨-, kinds, -⟩ := pairItem_inj same
          cases kinds
      | branch children value' => exact (pairItem_ne_branch same).elim
  | ext key child induction =>
      cases other with
      | null => cases same
      | leaf key' value =>
          obtain ⟨-, kinds, -⟩ := pairItem_inj same
          cases kinds
      | ext key' child' =>
          obtain ⟨keys, -, references⟩ := pairItem_inj same
          have items := item_eq_of_ref short.2 short'.2
            (injective.mono (Set.union_subset_union
              Set.subset_union_left Set.subset_union_left)) references
          rw [keys, induction short.2 short'.2
            (injective.mono (Set.union_subset_union
              Set.subset_union_right Set.subset_union_right)) items]
      | branch children value => exact (pairItem_ne_branch same).elim
  | branch children value induction =>
      cases other with
      | null => cases same
      | leaf key value' => exact (pairItem_ne_branch same.symm).elim
      | ext key child => exact (pairItem_ne_branch same.symm).elim
      | branch children' value' =>
          obtain ⟨slots, last⟩ := List.append_inj (Item.list.inj same)
            (by rw [List.length_ofFn, List.length_ofFn])
          have references := List.ofFn_injective slots
          have values := Item.data.inj (List.cons.inj last).1
          have below : children = children' := by
            funext digit
            have items := item_eq_of_ref (short digit) (short' digit)
              (injective.mono (Set.union_subset_union
                (hashedString_child children value digit)
                (hashedString_child children' value' digit)))
              (congrFun references digit)
            exact induction digit (short digit) (short' digit)
              (injective.mono (Set.union_subset_union
                (hashedBelow_child children value digit)
                (hashedBelow_child children' value' digit))) items
          rw [below, slotBytes_inj values]

/-- Tries with one root are the same. -/
theorem eq_of_root (short : node.Short) (short' : other.Short)
    (injective : Set.InjOn sha3 (hashedStrings sha3 node ∪
      hashedStrings sha3 other))
    (same : sha3 (enc sha3 node) = sha3 (enc sha3 other)) :
    node = other := by
  have texts := injective (.inl (.inl rfl)) (.inr (.inl rfl)) same
  have below : ∀ node : Node, hashedBelow sha3 node ⊆ hashedStrings sha3 node :=
    fun _ _ inside => .inr inside
  exact eq_of_item short short'
    (injective.mono (Set.union_subset_union (below node) (below other)))
    (item_eq_of_enc short short' texts)

end Node

/-! ## Maps -/

open Patricia.Trie

/-- What a trie can hold. -/
def Holdable (map : BytesMap) : Prop :=
  ∀ key value, map.lookup key = some value →
    key.length < 2 ^ 30 ∧ value ≠ [] ∧ value.length < 2 ^ 56

theorem exists_agrees {map : BytesMap} (holdable : Holdable map) :
    ∃ node : Node, node.Canonical ∧ Agrees map node := by
  induction map using AList.insertRec with
  | H0 =>
      refine ⟨.null, trivial, fun path bytes => ?_⟩
      constructor
      · rintro ⟨value, found, -⟩
        cases found
      · rintro ⟨key, -, found⟩
        cases found
  | IH key value map fresh induction =>
      have below : Holdable map := by
        intro other bytes found
        refine holdable other bytes ?_
        rw [AList.lookup_insert_ne]
        · exact found
        · rintro rfl
          rw [AList.lookup_eq_none.mpr fresh] at found
          cases found
      obtain ⟨node, canonical, agrees⟩ := induction below
      obtain ⟨-, nonempty, small⟩ :=
        holdable key value (AList.lookup_insert map)
      exact ⟨_, canonical.insert _ _, agrees.insert key ⟨value, nonempty, small⟩⟩

theorem Agrees.lookup_iff {map : BytesMap} {node : Node}
    (agrees : Agrees map node) (key bytes : Bytes) :
    map.lookup key = some bytes ↔
      ∃ value, node.get (asNibbles key) = some value ∧ value.val = bytes := by
  rw [agrees (asNibbles key) bytes]
  constructor
  · intro found
    exact ⟨key, rfl, found⟩
  · rintro ⟨other, same, found⟩
    rwa [asNibbles_injective same] at found

variable (sha3 : Bytes → H256) in
/-- The strings that are hashed for the root of a map. -/
def hashedFor (map : BytesMap) : Set Bytes :=
  { text | ∃ node : Node, node.Canonical ∧ Agrees map node ∧
    text ∈ node.hashedStrings sha3 }

theorem short_of_agrees {map : BytesMap} {node : Node}
    (holdable : Holdable map) (canonical : node.Canonical)
    (agrees : Agrees map node) : node.Short := by
  refine Node.short_of_get canonical fun path value found => ?_
  obtain ⟨key, rfl, held⟩ := agrees.exists_key found
  have small := (holdable key value.val held).1
  rw [length_asNibbles]
  omega

/-- Maps with one root are the same. -/
theorem lookup_eq_of_hash256 {sha3 : Bytes → H256} {map other : BytesMap}
    {hash : H256} (holdable : Holdable map) (holdable' : Holdable other)
    (injective : Set.InjOn sha3 (hashedFor sha3 map ∪ hashedFor sha3 other))
    (root : hash256 sha3 map = .ok hash)
    (root' : hash256 sha3 other = .ok hash) (key : Bytes) :
    map.lookup key = other.lookup key := by
  have keys : ∀ {map : BytesMap}, Holdable map →
      ∀ key ∈ map, key.length < 2 ^ 30 := by
    intro map holdable key member
    obtain ⟨value, found⟩ := Option.isSome_iff_exists.mp
      (AList.lookup_isSome.mpr member)
    exact (holdable key value found).1
  obtain ⟨node, canonical, agrees⟩ := exists_agrees holdable
  obtain ⟨node', canonical', agrees'⟩ := exists_agrees holdable'
  rw [hash256_eq canonical agrees (keys holdable)] at root
  rw [hash256_eq canonical' agrees' (keys holdable')] at root'
  have hashes := (Except.ok.inj root).trans (Except.ok.inj root').symm
  have inside : node.hashedStrings sha3 ⊆ hashedFor sha3 map :=
    fun _ hashed => ⟨node, canonical, agrees, hashed⟩
  have inside' : node'.hashedStrings sha3 ⊆ hashedFor sha3 other :=
    fun _ hashed => ⟨node', canonical', agrees', hashed⟩
  have same : node = node' := Node.eq_of_root
    (short_of_agrees holdable canonical agrees)
    (short_of_agrees holdable' canonical' agrees')
    (injective.mono (Set.union_subset_union inside inside')) hashes
  subst same
  refine Option.ext fun bytes => ?_
  rw [agrees.lookup_iff, agrees'.lookup_iff]

end Aecmio
