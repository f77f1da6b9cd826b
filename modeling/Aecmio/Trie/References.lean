import Aecmio.Trie.Refinement

/-!
# Reference counts

The reference count of a hash is the number of its occurrences in the tree
that unfolds from the root, so that nothing reachable is ever lost and
nothing unreachable is kept, and `check` finds the trie in order.
-/

namespace Aecmio

open Item TrieM Traced Node Patricia Patricia.Trie

/-! ## The unfolded tree -/

/-- The hashes met below an entry of a node. -/
def unfoldEntry (unfoldNode : Bytes → TrieM (List H256)) (entry : Bytes) :
    TrieM (List H256) := do
  if RLP.isList entry then unfoldNode entry
  else if RLP.isEmpty entry then return []
  else
    let hash ← ofRLP (RLP.toHash 32 entry)
    return hash :: (← unfoldNode (← rlpOf (← node hash)))

/-- The hashes met below a node, each as often as it is met; `fuel` bounds
the depth. -/
def unfoldNode : Nat → Bytes → TrieM (List H256)
  | 0, _ => throw .outOfFuel
  | fuel + 1, text => do
      if RLP.isEmpty text then return []
      let count ← nodeCount text
      if count = 2 then
        if ← isLeaf text then return []
        else unfoldEntry (unfoldNode fuel) (← itemAt text 1)
      else
        (List.range 16).foldlM
          (fun found slot => do
            return found ++
              (← unfoldEntry (unfoldNode fuel) (← itemAt text slot))) []

/-- The hashes of the tree unfolded from the root, which counts once. -/
def unfold (fuel : Nat) : TrieM (List H256) := do
  let hash := (← get).root
  return hash :: (← unfoldNode fuel (← rlpOf (← node hash)))

variable {sha3 : Bytes → H256} {occurring : Set Bytes} {trie : GenericTrieDB}

namespace Node

/-- The number of levels. -/
def height : Node → Nat
  | .null => 1
  | .leaf _ _ => 1
  | .ext _ child => height child + 1
  | .branch children _ => (Finset.univ.sup fun digit => height (children digit)) + 1

variable (sha3) in
/-- The reference to a node, as a list. -/
def ownList (node : Node) : List H256 :=
  if (enc sha3 node).length < 32 then [] else [sha3 (enc sha3 node)]

variable (sha3) in
/-- The references below a node, from left to right. -/
def refsList : Node → List H256
  | .null => []
  | .leaf _ _ => []
  | .ext _ child => ownList sha3 child ++ refsList child
  | .branch children _ =>
      (List.finRange 16).flatMap fun digit =>
        ownList sha3 (children digit) ++ refsList (children digit)

theorem coe_ownList (node : Node) :
    (ownList sha3 node : Multiset H256) = own sha3 node := by
  unfold ownList own
  split <;> rfl

theorem coe_refsList (node : Node) :
    (refsList sha3 node : Multiset H256) = refs sha3 node := by
  have sums : ∀ (digits : List Nibble) (part : Nibble → List H256),
      (digits.flatMap part : Multiset H256) =
        (digits.map fun digit => (part digit : Multiset H256)).sum := by
    intro digits part
    induction digits with
    | nil => rfl
    | cons digit digits induction =>
        rw [List.flatMap_cons, ← Multiset.coe_add, induction, List.map_cons,
          List.sum_cons]
  induction node with
  | null => rfl
  | leaf key value => rfl
  | ext key child induction =>
      rw [refsList, refs, ← Multiset.coe_add, coe_ownList, induction]
  | branch children value induction =>
      rw [refsList, refs, sums, Fin.sum_univ_def]
      congr 1
      apply List.map_congr_left
      intro digit _
      rw [← Multiset.coe_add, coe_ownList, induction]

end Node

/-- A loop over a range in which no round changes the object. -/
theorem run_foldlM_range {β : Type} {step : β → Nat → TrieM β}
    (state : Nat → β) {count : Nat}
    (each : ∀ slot < count,
      (step (state slot) slot).run trie = .ok (state (slot + 1)) trie) :
    ((List.range count).foldlM step (state 0)).run trie =
      .ok (state count) trie := by
  induction count with
  | zero => rfl
  | succ count induction =>
      have before := induction fun slot inside => each slot (by omega)
      have last := each count (by omega)
      rw [List.range_succ, List.foldlM_append, EStateM.run_bind, before]
      simp only [List.foldlM_cons, List.foldlM_nil, bind_pure]
      exact last

/-- A slot of a branch, seen from the left. -/
theorem flatMap_take_succ {α : Type} (part : Nibble → List α) {slot : Nat}
    (inside : slot < 16) :
    ((List.finRange 16).take (slot + 1)).flatMap part =
      ((List.finRange 16).take slot).flatMap part ++ part ⟨slot, inside⟩ := by
  have next : (List.finRange 16).take (slot + 1) =
      (List.finRange 16).take slot ++ [⟨slot, inside⟩] := by
    rw [List.take_succ, List.getElem?_eq_getElem (by simpa using inside)]
    simp
  rw [next, List.flatMap_append, List.flatMap_singleton]

theorem run_unfoldEntry {unfoldNode : Bytes → TrieM (List H256)}
    {child : Node} (sound : Sound sha3 occurring trie)
    (stored : StoredRef sha3 trie child) (short : child.Short)
    (below : child ≠ .null → (unfoldNode (enc sha3 child)).run trie =
      .ok (refsList sha3 child) trie) :
    (unfoldEntry unfoldNode (ref sha3 child).encode).run trie =
      .ok (ownList sha3 child ++ refsList sha3 child) trie := by
  unfold unfoldEntry
  by_cases empty : child = .null
  · subst empty
    rw [ref_null]
    rfl
  · by_cases inline : (enc sha3 child).length < 32
    · have list : RLP.isList (item sha3 child).encode = true :=
        isList_enc short empty
      rw [ref_inline sha3 inline, list, if_pos rfl, ownList, if_pos inline]
      exact below empty
    · obtain ⟨list, _, filled, hash⟩ := read_hash (sha3 (enc sha3 child))
      have view : rlpOf (enc sha3 child) = pure (enc sha3 child) :=
        rlpOf_enc short
      rw [ref_hashed sha3 inline, list, if_neg Bool.false_ne_true, filled,
        if_neg Bool.false_ne_true, hash, ofRLP_ok, pure_bind, ownList,
        if_neg inline, EStateM.run_bind,
        node_of_holds sound (stored.1 inline)]
      simp only [EStateM.run_bind, view, EStateM.run_pure, below empty]
      rfl

theorem run_unfoldNode (sound : Sound sha3 occurring trie) {node : Node}
    (short : node.Short) (stored : Stored sha3 trie node) {fuel : Nat}
    (enough : height node ≤ fuel) :
    (unfoldNode fuel (enc sha3 node)).run trie =
      .ok (refsList sha3 node) trie := by
  induction node generalizing fuel with
  | null =>
      obtain ⟨fuel, rfl⟩ : ∃ less, fuel = less + 1 :=
        ⟨fuel - 1, by rw [height] at enough; omega⟩
      rfl
  | leaf key value =>
      obtain ⟨fuel, rfl⟩ : ∃ less, fuel = less + 1 :=
        ⟨fuel - 1, by rw [height] at enough; omega⟩
      have small : SmallPair key true (.data value.val) :=
        small_pair true short (encode_value_length value)
      have view : enc sha3 (.leaf key value) =
          (pairItem key true (.data value.val)).encode := rfl
      rw [view, unfoldNode]
      simp only [isEmpty_pair small, nodeCount_pair small, isLeaf_pair small,
        pure_bind, Bool.false_eq_true, if_false, if_true]
      rfl
  | ext key child induction =>
      obtain ⟨fuel, rfl⟩ : ∃ less, fuel = less + 1 :=
        ⟨fuel - 1, by rw [height] at enough; omega⟩
      have bound := encode_reference_length sha3 (item sha3 child)
      have small : SmallPair key false (ref sha3 child) :=
        small_pair false short.1 (Nat.lt_of_le_of_lt bound (by decide))
      have view : enc sha3 (.ext key child) =
          (pairItem key false (ref sha3 child)).encode := rfl
      rw [view, unfoldNode]
      simp only [isEmpty_pair small, nodeCount_pair small, isLeaf_pair small,
        pure_bind, Bool.false_eq_true, if_false, if_true,
        itemAt_pair_second small]
      refine run_unfoldEntry sound stored short.2 fun _ => ?_
      rw [height] at enough
      exact induction short.2 stored.2 (by omega)
  | branch children value induction =>
      obtain ⟨fuel, rfl⟩ : ∃ less, fuel = less + 1 :=
        ⟨fuel - 1, by rw [height] at enough; omega⟩
      have small := small_branch_ref sha3 children value
      have nonempty : RLP.isEmpty (enc sha3 (.branch children value)) =
          false := isEmpty_branch small
      have count : nodeCount (enc sha3 (.branch children value)) = pure 17 :=
        nodeCount_branch small
      have lower : ∀ digit, height (children digit) ≤ fuel := by
        intro digit
        have whole : height (children digit) ≤
            Finset.univ.sup fun digit => height (children digit) :=
          Finset.le_sup (f := fun digit => height (children digit))
            (Finset.mem_univ digit)
        rw [height] at enough
        omega
      rw [unfoldNode]
      simp only [nonempty, count, pure_bind, Bool.false_eq_true, if_false,
        show ¬ (17 : Nat) = 2 by omega]
      refine run_foldlM_range
        (fun slot => ((List.finRange 16).take slot).flatMap fun digit =>
          ownList sha3 (children digit) ++ refsList sha3 (children digit)) ?_
      intro slot inside
      have read : itemAt (enc sha3 (.branch children value)) slot =
          pure (ref sha3 (children ⟨slot, inside⟩)).encode :=
        itemAt_branch small ⟨slot, inside⟩
      have entry := run_unfoldEntry sound (stored ⟨slot, inside⟩)
        (short ⟨slot, inside⟩)
        (fun _ => induction ⟨slot, inside⟩ (short _) (stored _).2 (lower _))
      rw [flatMap_take_succ _ inside, read, pure_bind, EStateM.run_bind,
        entry]
      rfl

theorem Holding.run_unfold {map : BytesMap} {node : Node}
    (holding : Holding sha3 occurring trie map node) {fuel : Nat}
    (enough : height node ≤ fuel) :
    (Aecmio.unfold fuel).run trie =
      .ok (trie.root :: refsList sha3 node) trie := by
  have read := holding.node_root
  have view : rlpOf (enc sha3 node) = pure (enc sha3 node) :=
    rlpOf_enc holding.short
  have below := run_unfoldNode holding.sound holding.short holding.stored
    enough
  unfold Aecmio.unfold
  rw [EStateM.run_bind]
  simp only [EStateM.run_get, EStateM.run_bind, read, view, EStateM.run_pure,
    below]

/-! ## The scan of `check` -/

theorem filter_notMem_append (mask first second : List H256) :
    (mask.filter fun hash => decide (hash ∉ first)).filter
        (fun hash => decide (hash ∉ second)) =
      mask.filter fun hash => decide (hash ∉ first ++ second) := by
  rw [List.filter_filter]
  congr 1
  funext hash
  simp [Bool.and_comm]

theorem run_descendEntry {child : Node} {fuel : Nat} {wasExt : Bool}
    (sound : Sound sha3 occurring trie)
    (null : Holds sha3 trie RLPNull) (stored : StoredRef sha3 trie child)
    (short : child.Short) (nonempty : child ≠ .null)
    (below : ∀ mask, (descendList (descendEntry sha3 fuel) (enc sha3 child)
      mask wasExt).run trie = .ok (mask.filter fun hash =>
        decide (hash ∉ refsList sha3 child)) trie) (mask : List H256) :
    (descendEntry sha3 (fuel + 1) (ref sha3 child).encode mask wasExt).run
        trie =
      .ok (mask.filter fun hash =>
        decide (hash ∉ ownList sha3 child ++ refsList sha3 child)) trie := by
  rw [← filter_notMem_append]
  unfold descendEntry
  by_cases inline : (enc sha3 child).length < 32
  · obtain ⟨items, listed, _⟩ := exists_items sha3 nonempty
    have data : RLP.isData (item sha3 child).encode = false := by
      rw [listed]
      exact isData_encode_list (small_items short listed)
    have list : RLP.isList (item sha3 child).encode = true :=
      isList_enc short nonempty
    have size : RLP.size (item sha3 child).encode = .ok 0 := by
      rw [RLP.size, data]
      rfl
    have none : (mask.filter fun hash =>
        decide (hash ∉ ownList sha3 child)) = mask := by
      simp [ownList, inline]
    rw [ref_inline sha3 inline, size, ofRLP_ok, pure_bind, data, list, none]
    exact below mask
  · obtain ⟨_, data, _, hash⟩ := read_hash (sha3 (enc sha3 child))
    have size : RLP.size (Item.data (sha3 (enc sha3 child)).val).encode =
        .ok 32 := by
      rw [RLP.size, data, if_pos rfl]
      have length := RLP.length_encodeData
        (hash_small (sha3 (enc sha3 child)))
      rw [(sha3 (enc sha3 child)).property] at length
      exact length
    have view : rlpOf (enc sha3 child) = pure (enc sha3 child) :=
      rlpOf_enc short
    have own : (mask.filter fun hash =>
        decide (hash ∉ ownList sha3 child)) =
          mask.filter (· ≠ sha3 (enc sha3 child)) := by
      simp [ownList, inline]
    have other : sha3 (enc sha3 child) ≠ emptyTrie sha3 := by
      intro same
      have held := stored.1 inline
      have null' := null
      unfold Holds at held null'
      rw [emptyTrie] at same
      rw [same, null'] at held
      exact inline (by
        rw [← Option.some.inj held]
        decide)
    rw [ref_hashed sha3 inline, size, ofRLP_ok, pure_bind, data, hash,
      ofRLP_ok, pure_bind, own]
    simp only [beq_self_eq_true, Bool.and_self, if_true]
    unfold descendKey
    rw [EStateM.run_bind]
    simp only [EStateM.run_get, other, and_false, if_false, EStateM.run_bind,
      node_of_holds sound (stored.1 inline), view, EStateM.run_pure]
    exact below _

theorem run_descendList (sound : Sound sha3 occurring trie)
    (null : Holds sha3 trie RLPNull) {node : Node}
    (canonical : node.Canonical) (short : node.Short)
    (stored : Stored sha3 trie node) (nonempty : node ≠ .null) {fuel : Nat}
    (enough : height node ≤ fuel + 1) {wasExt : Bool}
    (branch : wasExt = true → node.IsBranch) (mask : List H256) :
    (descendList (descendEntry sha3 fuel) (enc sha3 node) mask wasExt).run
        trie =
      .ok (mask.filter fun hash =>
        decide (hash ∉ refsList sha3 node)) trie := by
  induction node generalizing fuel wasExt mask with
  | null => exact absurd rfl nonempty
  | leaf key value =>
      have small : SmallPair key true (.data value.val) :=
        small_pair true short (encode_value_length value)
      have view : enc sha3 (.leaf key value) =
          (pairItem key true (.data value.val)).encode := rfl
      have first : wasExt = false := by
        cases wasExt with
        | false => rfl
        | true => exact (branch rfl).elim
      rw [view, descendList]
      simp only [itemCount_pair small, isList_pair small, isLeaf_pair small,
        pure_bind, first, beq_self_eq_true, Bool.not_false, Bool.and_self,
        if_true]
      simp [refsList]
  | ext key child induction =>
      obtain ⟨_, below, inner⟩ := canonical
      have bound := encode_reference_length sha3 (item sha3 child)
      have small : SmallPair key false (ref sha3 child) :=
        small_pair false short.1 (Nat.lt_of_le_of_lt bound (by decide))
      have view : enc sha3 (.ext key child) =
          (pairItem key false (ref sha3 child)).encode := rfl
      have first : wasExt = false := by
        cases wasExt with
        | false => rfl
        | true => exact (branch rfl).elim
      have positive : 1 ≤ height child := by
        cases child <;> simp [height]
      rw [height] at enough
      obtain ⟨fuel, rfl⟩ : ∃ less, fuel = less + 1 := ⟨fuel - 1, by omega⟩
      rw [view, descendList]
      simp only [itemCount_pair small, isList_pair small, isLeaf_pair small,
        pure_bind, first, beq_self_eq_true, Bool.not_false, Bool.and_self,
        if_true, Bool.false_eq_true, if_false, itemAt_pair_second small]
      exact run_descendEntry sound null stored short.2
        (ne_null_of_isBranch below) (fun mask => induction inner short.2
          stored.2 (ne_null_of_isBranch below) (by omega) (fun _ => below)
          mask) mask
  | branch children value induction =>
      have small := small_branch_ref sha3 children value
      have list : RLP.isList (enc sha3 (.branch children value)) = true :=
        isList_branch small
      have count : ofRLP (RLP.itemCount (enc sha3 (.branch children value))) =
          pure 17 := itemCount_branch small
      have lower : ∀ digit, height (children digit) ≤ fuel := by
        intro digit
        have whole : height (children digit) ≤
            Finset.univ.sup fun digit => height (children digit) :=
          Finset.le_sup (f := fun digit => height (children digit))
            (Finset.mem_univ digit)
        rw [height] at enough
        omega
      have positive : 1 ≤ height (children 0) := by
        cases children 0 <;> simp [height]
      obtain ⟨fuel, rfl⟩ : ∃ less, fuel = less + 1 :=
        ⟨fuel - 1, by have first := lower 0; omega⟩
      rw [descendList]
      simp only [list, count, pure_bind, Bool.true_and,
        show ((17 : Nat) == 2) = false from rfl, Bool.false_and,
        Bool.false_eq_true, if_false, beq_self_eq_true, if_true]
      let left := fun slot => mask.filter fun hash => decide (hash ∉
        ((List.finRange 16).take slot).flatMap fun digit =>
          ownList sha3 (children digit) ++ refsList sha3 (children digit))
      have start : left 0 = mask := by simp [left]
      have slots : ((List.range 16).foldlM
          (fun keyMask slot => do
            let entry ← itemAt (enc sha3 (.branch children value)) slot
            if RLP.isEmpty entry then return keyMask
            else descendEntry sha3 (fuel + 1) entry keyMask false)
          (left 0)).run trie = .ok (left 16) trie := by
        refine run_foldlM_range left ?_
        intro slot inside
        have read : itemAt (enc sha3 (.branch children value)) slot =
            pure (ref sha3 (children ⟨slot, inside⟩)).encode :=
          itemAt_branch small ⟨slot, inside⟩
        simp only [left]
        rw [flatMap_take_succ _ inside, ← filter_notMem_append, read,
          pure_bind]
        by_cases empty : children ⟨slot, inside⟩ = .null
        · have unused : RLP.isEmpty (ref sha3 .null).encode = true := by
            rw [ref_null]
            rfl
          rw [empty, unused, if_pos rfl]
          simp [ownList, refsList, enc_null]
        · rw [isEmpty_ref (short _) empty, if_neg Bool.false_ne_true]
          exact run_descendEntry sound null (stored ⟨slot, inside⟩)
            (short _) empty (fun mask => induction ⟨slot, inside⟩
              (canonical.1 _) (short _) (stored _).2 empty (lower _)
              (fun wrong => absurd wrong (by simp)) mask) _
      rw [start] at slots
      exact slots

theorem Holding.run_leftOvers {map : BytesMap} {node : Node}
    (holding : Holding sha3 occurring trie map node) {fuel : Nat}
    (enough : height node ≤ fuel + 1) :
    (leftOvers sha3 fuel).run trie =
      .ok (trie.db.keys.filter fun hash =>
        decide (hash ∉ trie.root :: refsList sha3 node)) trie := by
  have read := holding.node_root
  have view : rlpOf (enc sha3 node) = pure (enc sha3 node) :=
    rlpOf_enc holding.short
  have split : (trie.db.keys.filter fun hash =>
      decide (hash ∉ trie.root :: refsList sha3 node)) =
        (trie.db.keys.filter (· ≠ trie.root)).filter fun hash =>
          decide (hash ∉ refsList sha3 node) := by
    rw [List.filter_filter]
    congr 1
    funext hash
    simp [Bool.and_comm]
  unfold leftOvers descendKey
  rw [EStateM.run_bind, split]
  simp only [EStateM.run_get, EStateM.run_bind]
  by_cases empty : node = .null
  · have same : trie.root = emptyTrie sha3 := by
      rw [holding.root, empty]
      rfl
    subst empty
    simp [same, refsList]
  · have other : ¬ trie.root = emptyTrie sha3 := by
      intro same
      have held := holding.held
      have null := holding.null
      unfold Holds at held null
      rw [holding.root, emptyTrie] at same
      rw [same, null] at held
      have list : RLP.isList (enc sha3 node) = true :=
        isList_enc holding.short empty
      rw [← Option.some.inj held] at list
      exact absurd list (by decide)
    rw [if_neg (fun both => other both.2)]
    simp only [EStateM.run_bind, read, view, EStateM.run_pure]
    exact run_descendList holding.sound holding.null holding.canonical
      holding.short holding.stored empty enough
      (fun wrong => absurd wrong (by simp)) _

theorem run_check {fuel : Nat} {trie : GenericTrieDB}
    (left : (leftOvers sha3 fuel).run trie = .ok [] trie) :
    (check sha3 fuel true).run trie = .ok true trie := by
  rw [EStateM.run] at left
  simp [check, EStateM.run, left]

/-- After calls with keys of one length, the count of every hash is the
number of its occurrences in the tree that unfolds from the root. -/
theorem session_counts (length : Nat) (operations : List Operation)
    (uniform : ∀ operation ∈ operations, operation.key.val.length = length)
    (injective : Set.InjOn sha3 (written sha3 operations)) :
    ∃ trie references depth,
      (session sha3 operations).run {} = .ok () trie ∧
      (∀ fuel, depth ≤ fuel →
        (Aecmio.unfold fuel).run trie = .ok references trie) ∧
      (∀ hash, trie.db.count hash = references.count hash) ∧
      (∀ hash ∈ references, trie.db.count hash ≠ 0) ∧
      (∀ hash, hash ∉ references → trie.db.count hash = 0) ∧
      ∀ fuel, depth ≤ fuel → (check sha3 fuel true).run trie = .ok true trie := by
  obtain ⟨trie, ran, _, node, holding, counted⟩ :=
    session_ok (runs_session injective uniform)
  have counts : ∀ hash,
      trie.db.count hash = (trie.root :: refsList sha3 node).count hash := by
    intro hash
    rw [counted hash, ← coe_refsList, add_comm]
    convert Multiset.coe_count hash (trie.root :: refsList sha3 node)
    rfl
  refine ⟨trie, trie.root :: refsList sha3 node, height node, ran,
    fun fuel enough => holding.run_unfold enough, counts, ?_, ?_, ?_⟩
  · intro hash member
    rw [counts hash]
    exact (List.count_pos_iff.mpr member).ne'
  · intro hash missing
    rw [counts hash]
    exact List.count_eq_zero.mpr missing
  · intro fuel enough
    have left := holding.run_leftOvers
      (show height node ≤ fuel + 1 by omega)
    have none : (trie.db.keys.filter fun hash =>
        decide (hash ∉ trie.root :: refsList sha3 node)) = [] := by
      rw [List.filter_eq_nil_iff]
      intro hash member
      have positive := MemoryDB.mem_keys.mp member
      rw [counts hash, List.count_pos_iff] at positive
      simpa only [decide_eq_true_eq, not_not] using positive
    rw [none] at left
    exact run_check left

theorem session_counts_sample :
    ∃ trie references depth,
      (session sampleHash sampleCalls).run {} = .ok () trie ∧
      (∀ fuel, depth ≤ fuel →
        (Aecmio.unfold fuel).run trie = .ok references trie) ∧
      (∀ hash, trie.db.count hash = references.count hash) ∧
      ∀ fuel, depth ≤ fuel →
        (check sampleHash fuel true).run trie = .ok true trie := by
  have injective : Set.InjOn sampleHash (written sampleHash sampleCalls) :=
    injOn_written (by decide +kernel)
  obtain ⟨trie, references, depth, ran, unfolds, counts, _, _, checks⟩ :=
    session_counts 1 sampleCalls (by decide) injective
  exact ⟨trie, references, depth, ran, unfolds, counts, checks⟩

end Aecmio
