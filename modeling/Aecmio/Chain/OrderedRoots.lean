import Aecmio.Chain.Receipt
import Aecmio.Rlp.Fields
import Aecmio.Trie.Committing

/-!
# Roots of numbered items

`trieRootOver` puts items under the RLP of their numbers.  As long as no two
strings collide, the root fixes the number of items and every one of them.
-/

namespace Aecmio

open Item

/-- `trieRootOver`.  The number of items is an `unsigned`. -/
def trieRootOver (sha3 : Bytes → H256) (itemCount : Nat)
    (getKey getValue : Nat → Except RLPError Bytes) : Except RLPError H256 := do
  let map ← (List.range (itemCount % 2 ^ 32)).foldlM
    (fun (map : BytesMap) index => do
      return map.insert (← getKey index) (← getValue index)) ∅
  hash256 sha3 map

/-- The item of an index. -/
def indexText (index : Nat) : Bytes :=
  encodeData (RLPStream.intContent index)

theorem length_intContent (value : Nat) :
    (RLPStream.intContent value).length = bytesRequired value := by
  simp [RLPStream.intContent]

theorem indexKey_eq {index : Nat} (small : index < 2 ^ 32) :
    indexKey index = .ok (indexText index) := by
  have digits : bytesRequired index ≤ 4 := by
    rw [bytesRequired_le_iff]
    omega
  rw [indexKey, Nat.mod_eq_of_lt small, RLPStream.appendInt_eq {} (by omega)]
  rfl

theorem indexText_injective {index other : Nat} (small : index < 2 ^ 32)
    (small' : other < 2 ^ 32) (same : indexText index = indexText other) :
    index = other := by
  have read := @RLP.toInt_intContent .uint32 index small
  have read' := @RLP.toInt_intContent .uint32 other small'
  rw [indexText, indexText] at same
  rw [same, read'] at read
  exact (Except.ok.inj read).symm

theorem length_indexText {index : Nat} (small : index < 2 ^ 32) :
    (indexText index).length < 2 ^ 30 := by
  have digits : bytesRequired index ≤ 4 := by
    rw [bytesRequired_le_iff]
    omega
  have content := length_intContent index
  have bound := encodeData_length_le
    (show (RLPStream.intContent index).length < 2 ^ 64 by omega)
  rw [indexText]
  omega

/-- The map of the items. -/
def indexed (items : List Bytes) : BytesMap :=
  items.zipIdx.foldl
    (fun map entry => map.insert (indexText entry.2) entry.1) ∅

theorem indexed_append (items : List Bytes) (last : Bytes) :
    indexed (items ++ [last]) =
      (indexed items).insert (indexText items.length) last := by
  simp [indexed, List.zipIdx_append]

theorem lookup_indexed {items : List Bytes} (few : items.length ≤ 2 ^ 32)
    (key value : Bytes) :
    (indexed items).lookup key = some value ↔
      ∃ index, indexText index = key ∧ items[index]? = some value := by
  induction items using List.reverseRecOn with
  | nil =>
      constructor
      · intro found
        cases found
      · rintro ⟨index, -, found⟩
        cases found
  | append_singleton items last induction =>
      rw [List.length_append, List.length_singleton] at few
      rw [indexed_append]
      by_cases same : key = indexText items.length
      · subst same
        rw [AList.lookup_insert]
        constructor
        · intro found
          exact ⟨items.length, rfl, by simpa using found⟩
        · rintro ⟨index, keys, found⟩
          have inside := (List.getElem?_eq_some_iff.mp found).1
          rw [List.length_append, List.length_singleton] at inside
          have equal := indexText_injective (by omega) (by omega) keys
          rw [equal] at found
          simpa using found
      · rw [AList.lookup_insert_ne same, induction (by omega)]
        refine exists_congr fun index => and_congr_right fun keys => ?_
        have other : index ≠ items.length := by
          rintro rfl
          exact same keys.symm
        rcases Nat.lt_or_gt_of_ne other with before | after
        · rw [List.getElem?_append_left before]
        · rw [List.getElem?_eq_none (by omega), List.getElem?_eq_none]
          rw [List.length_append, List.length_singleton]
          omega

/-- The loop of `trieRootOver` over items that can be had. -/
theorem trieRootOver_eq {sha3 : Bytes → H256} {count : Nat}
    {items : List Bytes} {getValue : Nat → Except RLPError Bytes}
    (counted : items.length = count % 2 ^ 32)
    (values : ∀ (index : Nat) (inRange : index < items.length),
      getValue index = .ok items[index]) :
    trieRootOver sha3 count indexKey getValue =
      hash256 sha3 (indexed items) := by
  have built : ∀ rounds ≤ items.length, (List.range rounds).foldlM
      (fun (map : BytesMap) index => do
        return map.insert (← indexKey index) (← getValue index)) ∅ =
      (.ok (indexed (items.take rounds)) : Except RLPError BytesMap) := by
    intro rounds
    induction rounds with
    | zero =>
        intro _
        rfl
    | succ rounds induction =>
        intro inRange
        have below : rounds < items.length := inRange
        have modulus := Nat.mod_lt count (show 0 < 2 ^ 32 by decide)
        rw [List.range_succ, List.foldlM_append, induction (by omega),
          List.take_add_one, List.getElem?_eq_getElem below]
        have key := indexKey_eq (show rounds < 2 ^ 32 by omega)
        have length : (items.take rounds).length = rounds := by
          rw [List.length_take]
          omega
        simp only [Option.toList_some, indexed_append, length]
        simp only [bind, Except.bind, List.foldlM_cons, List.foldlM_nil, key,
          values rounds below, pure, Except.pure]
  have whole := built items.length (Nat.le_refl _)
  rw [List.take_length, counted] at whole
  rw [trieRootOver, whole]
  rfl

theorem holdable_indexed {items : List Bytes} (few : items.length ≤ 2 ^ 32)
    (sized : ∀ item ∈ items, item ≠ [] ∧ item.length < 2 ^ 56) :
    Holdable (indexed items) := by
  intro key value found
  obtain ⟨index, rfl, held⟩ := (lookup_indexed few key value).mp found
  have inside := (List.getElem?_eq_some_iff.mp held).1
  exact ⟨length_indexText (by omega), sized value (List.mem_of_getElem? held)⟩

/-- The root fixes the items. -/
theorem indexed_injective {sha3 : Bytes → H256} {items others : List Bytes}
    {hash : H256} (few : items.length ≤ 2 ^ 32)
    (few' : others.length ≤ 2 ^ 32)
    (sized : ∀ item ∈ items, item ≠ [] ∧ item.length < 2 ^ 56)
    (sized' : ∀ item ∈ others, item ≠ [] ∧ item.length < 2 ^ 56)
    (injective : Set.InjOn sha3 (hashedFor sha3 (indexed items) ∪
      hashedFor sha3 (indexed others)))
    (root : hash256 sha3 (indexed items) = .ok hash)
    (root' : hash256 sha3 (indexed others) = .ok hash) : items = others := by
  have lookups := lookup_eq_of_hash256 (holdable_indexed few sized)
    (holdable_indexed few' sized') injective root root'
  have half : ∀ {items others : List Bytes}, items.length ≤ 2 ^ 32 →
      others.length ≤ 2 ^ 32 →
      (∀ key, (indexed items).lookup key = (indexed others).lookup key) →
      ∀ (index : Nat) (value : Bytes), items[index]? = some value →
        others[index]? = some value := by
    intro items others few few' lookups index value found
    have held := (lookup_indexed few (indexText index) value).mpr
      ⟨index, rfl, found⟩
    rw [lookups] at held
    obtain ⟨other, keys, there⟩ := (lookup_indexed few' _ value).mp held
    have inside := (List.getElem?_eq_some_iff.mp found).1
    have inside' := (List.getElem?_eq_some_iff.mp there).1
    rwa [indexText_injective (by omega) (by omega) keys] at there
  refine List.ext_getElem? fun index => Option.ext fun value => ?_
  exact ⟨half few few' lookups index value,
    half few' few (fun key => (lookups key).symm) index value⟩

end Aecmio
