import Aecmio.Trie.Store

/-!
# Insertion refines the Patricia trie

`mergeAt` on the encoding of a trie returns the encoding of the trie with the
value inserted.  The proof follows the calls: `MergesTo` is the contract of
one call, and each way through `mergeAt` derives it from the contract of the
call it makes.  Nodes that `cleve` and `branch` have just built are not in
the database yet; they are passed on as being in line.
-/

namespace Aecmio

set_option synthInstance.maxSize 1024

open Item TrieM Traced Node

variable (sha3 : Bytes → H256) (occurring : Set Bytes)

/-- The contract of a call of `mergeAt`.  A transient node is not counted in
the database; `balanced` is when the counts are promised to come out right. -/
def MergesTo (fuel : Nat) (transient : Bool) (balanced : Prop)
    (node target : Node) (path : List Nibble) (value : TrieValue) : Prop :=
  ∀ (trie : GenericTrieDB) (key : NibbleSlice) (hash : H256) (inLine : Bool),
    Sound sha3 occurring trie → key.Valid → key.toList = path →
    Stored sha3 trie node →
    (if transient then inLine = true
      else hash = sha3 (enc sha3 node) ∧
        (inLine = true → (enc sha3 node).length < 32)) →
    Runs occurring
      (mergeAt sha3 fuel (enc sha3 node) hash key value.val inLine) trie
      fun text after =>
        text = enc sha3 target ∧ Follows sha3 occurring trie after ∧
        Stored sha3 after target ∧
        (balanced → Balance trie after
          ((if transient then 0 else own sha3 node) + refs sha3 node)
          (refs sha3 target))

variable {sha3} {occurring}
variable {fuel : Nat} {transient : Bool} {balanced : Prop} {trie : GenericTrieDB}

theorem runs_killUnless {node : Node} {hash : H256} {inLine : Bool}
    (sound : Sound sha3 occurring trie)
    (mode : if transient then inLine = true
      else hash = sha3 (enc sha3 node) ∧
        (inLine = true → (enc sha3 node).length < 32)) :
    Runs occurring (killUnless inLine (enc sha3 node) hash) trie fun _ after =>
      Follows sha3 occurring trie after ∧
        Balance trie after (if transient then 0 else own sha3 node) 0 := by
  unfold killUnless
  cases transient with
  | true =>
      have line : inLine = true := by simpa using mode
      rw [line]
      exact Ensures.pure ⟨.refl sound, .refl 0⟩
  | false =>
      obtain ⟨rfl, small⟩ : hash = sha3 (enc sha3 node) ∧
        (inLine = true → (enc sha3 node).length < 32) := by simpa using mode
      cases inLine with
      | true =>
          have inline := small rfl
          rw [if_pos rfl]
          refine Ensures.pure ⟨.refl sound, ?_⟩
          simp only [own, inline, if_true, Bool.false_eq_true, if_false]
          exact .refl 0
      | false => exact runs_killNode sound node

/-- `mergeAtAux` on a child, through the database if the child is hashed. -/
theorem runs_mergeAtAux (injective : Set.InjOn sha3 occurring)
    (sound : Sound sha3 occurring trie) {child child' : Node}
    {path : List Nibble} {value : TrieValue}
    (merges : MergesTo sha3 occurring fuel false balanced child child' path
      value)
    (short : child.Short) (stored : StoredRef sha3 trie child)
    {key : NibbleSlice} (valid : key.Valid) (viewed : key.toList = path)
    {total : Nat} {done : List Item} (missing : done.length < total)
    (small : (encodeAll (done ++ [ref sha3 child'])).length < sizeTRange) :
    Runs occurring
      (mergeAtAux sha3 (fun view => mergeAt sha3 fuel view (sha3 view))
        (building total done) (ref sha3 child).encode key value.val) trie
      fun stream after =>
        stream = building total (done ++ [ref sha3 child']) ∧
          Follows sha3 occurring trie after ∧ StoredRef sha3 after child' ∧
          (balanced → Balance trie after
            (own sha3 child + refs sha3 child)
            (own sha3 child' + refs sha3 child')) := by
  -- both ways end in the recursive call, followed by `streamNode`
  have finish : ∀ inLine, (inLine = true → (enc sha3 child).length < 32) →
      Runs occurring
        (mergeAt sha3 fuel (enc sha3 child) (sha3 (enc sha3 child)) key
          value.val inLine >>= streamNode sha3 (building total done)) trie
        fun stream after =>
          stream = building total (done ++ [ref sha3 child']) ∧
            Follows sha3 occurring trie after ∧ StoredRef sha3 after child' ∧
            (balanced → Balance trie after
              (own sha3 child + refs sha3 child)
              (own sha3 child' + refs sha3 child')) := by
    intro inLine line
    refine Ensures.bind (merges trie key _ inLine sound valid viewed stored.2
      (by simpa using line)) ?_
    rintro text middle ⟨rfl, follows, stored', balance⟩
    refine (runs_streamNode injective follows.sound child' missing small).mono
      ?_
    rintro stream after ⟨rfl, follows', held, balance'⟩
    refine ⟨rfl, follows.trans follows', ⟨held, stored'.mono follows'.keeps⟩,
      ?_⟩
    intro exact
    have first := balance exact
    have second := balance'.frame (refs sha3 child')
    simp only [Bool.false_eq_true, if_false] at first
    rw [zero_add] at second
    exact first.trans second
  unfold mergeAtAux
  by_cases inline : (enc sha3 child).length < 32
  · have skip : (!RLP.isList (ref sha3 child).encode &&
        !RLP.isEmpty (ref sha3 child).encode) = false := by
      rw [ref_inline sha3 inline]
      by_cases empty : child = .null
      · subst empty
        rfl
      · have list : RLP.isList (item sha3 child).encode = true :=
          isList_enc short empty
        simp [list]
    rw [skip, if_neg Bool.false_ne_true, ref_inline sha3 inline]
    exact finish true (fun _ => inline)
  · obtain ⟨list, _, empty, hash⟩ := read_hash (sha3 (enc sha3 child))
    have notNull : RLP.isNull (enc sha3 child) = false := isNull_encode _
    rw [ref_hashed sha3 inline, list, empty]
    simp only [Bool.not_false, Bool.and_self, if_true, hash, ofRLP_ok,
      pure_bind]
    refine Ensures.bind_of_run (node_of_holds sound (stored.1 inline)) ?_
    simp only [rlpOf_enc short, pure_bind, notNull, Bool.not_false,
      assert_true]
    exact finish false (fun line => absurd line (by simp))

/-! ## Placing a value -/

theorem merges_null {path : List Nibble} {value : TrieValue}
    (short : path.length < 2 ^ 32) :
    MergesTo sha3 occurring (fuel + 1) transient True .null
      (.leaf path value) path value := by
  intro trie key hash inLine sound valid viewed stored mode
  have empty : RLP.isEmpty (enc sha3 .null) = true := rfl
  have kill : killNode sha3 (enc sha3 .null) = pure () := rfl
  have written : rlpList (RLPStream.append (key.hexPrefixEncode true))
      (RLPStream.append value.val) =
        pure (enc sha3 (.leaf path value)) := by
    rw [key.hexPrefixEncode_eq true valid, viewed]
    exact rlpList_eq (appends_append _) (appends_append _)
      (small_pair true short (encode_value_length value))
  rw [mergeAt]
  simp only [empty, if_true, place, kill, pure_bind, written]
  refine Ensures.pure ⟨rfl, .refl sound, trivial, fun _ => ?_⟩
  have none : own sha3 (.null : Node) = 0 := rfl
  simp only [none, ite_self, refs, add_zero]
  exact .refl 0

theorem merges_leaf_same {path : List Nibble} {old value : TrieValue}
    (short : path.length < 2 ^ 32) :
    MergesTo sha3 occurring (fuel + 1) false True (.leaf path old)
      (.leaf path value) path value := by
  intro trie key hash inLine sound valid viewed stored mode
  have small : SmallPair path true (.data old.val) :=
    small_pair true short (encode_value_length old)
  have view : enc sha3 (.leaf path old) =
      (pairItem path true (.data old.val)).encode := rfl
  have same : (keySlice path true).equals key = true := by
    rw [NibbleSlice.equals_eq (valid_keySlice _ _) valid]
    simp [viewed]
  have written : rlpList
      (RLPStream.appendRaw (Item.data (hexPrefix path true)).encode 1)
      (RLPStream.append value.val) = pure (enc sha3 (.leaf path value)) :=
    rlpList_eq (appends_appendRaw _) (appends_append _)
      (small_pair true short (encode_value_length value))
  have kill := runs_killNode sound (.leaf path old)
  rw [view] at kill ⊢
  rw [mergeAt]
  simp only [isEmpty_pair small, nodeCount_pair small, keyOf_pair small,
    andLeaf_pair small, same, pure_bind, Bool.false_eq_true, if_false,
    if_true, BEq.rfl, Bool.and_self, place]
  refine Ensures.bind kill ?_
  rintro _ after ⟨follows, balance⟩
  simp only [isEmpty_pair small, nodeCount_pair small,
    itemAt_pair_first small, pure_bind, Bool.false_eq_true, if_false,
    if_true, written]
  refine Ensures.pure ⟨rfl, follows, trivial, fun _ => ?_⟩
  simpa [refs] using balance

/-- A value in the last slot of a branch.  On a transient branch the code
kills a node that was never counted. -/
theorem merges_branch_nil {children : Nibble → Node}
    {old : Option TrieValue} {value : TrieValue} :
    MergesTo sha3 occurring (fuel + 1) transient (transient = false)
      (.branch children old) (.branch children (some value)) [] value := by
  intro trie key hash inLine sound valid viewed stored mode
  have small := small_branch_ref sha3 children old
  have view : enc sha3 (.branch children old) =
      (branchItem (fun digit => ref sha3 (children digit))
        (slotBytes old)).encode := rfl
  have empty : key.size = 0 := by simp [viewed]
  have written := copy_with_value sha3 children old (some value)
  have kill := runs_killNode sound (.branch children old)
  rw [view] at kill ⊢
  rw [mergeAt]
  simp only [isEmpty_branch small, nodeCount_branch small, pure_bind,
    Bool.false_eq_true, if_false, empty, if_true, place,
    show ¬ (17 : Nat) = 2 by omega]
  refine Ensures.bind kill ?_
  rintro _ after ⟨follows, balance⟩
  rw [← view, show value.val = slotBytes (some value) from rfl, written]
  refine Ensures.pure ⟨rfl, follows, ?_, ?_⟩
  · exact stored.mono follows.keeps
  · intro real
    subst real
    have framed := balance.frame (refs sha3 (.branch children old))
    simpa [refs] using framed

/-! ## Descending -/

theorem merges_ext (injective : Set.InjOn sha3 occurring)
    {key path : List Nibble} {child child' : Node} {value : TrieValue}
    (merges : MergesTo sha3 occurring fuel false balanced child child' path
      value)
    (shortKey : key.length < 2 ^ 32) (short : child.Short) :
    MergesTo sha3 occurring (fuel + 1) transient balanced (.ext key child)
      (.ext key child') (key ++ path) value := by
  intro trie slice hash inLine sound valid viewed stored mode
  have bound := encode_reference_length sha3 (item sha3 child)
  have bound' := encode_reference_length sha3 (item sha3 child')
  have small : SmallPair key false (ref sha3 child) :=
    small_pair false shortKey (Nat.lt_of_le_of_lt bound (by decide))
  have small' : SmallPair key false (ref sha3 child') :=
    small_pair false shortKey (Nat.lt_of_le_of_lt bound' (by decide))
  have view : enc sha3 (.ext key child) =
      (pairItem key false (ref sha3 child)).encode := rfl
  have inside : slice.contains (keySlice key false) = true := by
    rw [NibbleSlice.contains_eq valid (valid_keySlice _ _)]
    simp [viewed]
  have midValid : (slice.mid key.length).Valid :=
    valid.mid (by simp [viewed])
  have midViewed : (slice.mid key.length).toList = path := by
    simp [viewed]
  have first : (building 2 []).appendRaw
      (Item.data (hexPrefix key false)).encode 1 =
        .ok (building 2 [.data (hexPrefix key false)]) :=
    appendRaw_building (by simp) (small_first small')
  have kill := runs_killUnless sound mode
  rw [view] at kill ⊢
  rw [mergeAt]
  simp only [isEmpty_pair small, nodeCount_pair small, keyOf_pair small,
    andLeaf_pair small, inside, pure_bind, Bool.false_eq_true, if_false,
    if_true, beq_self_eq_true, Bool.and_self, Bool.and_false,
    show (false == true) = false from rfl, NibbleSlice.size_eq,
    toList_keySlice]
  refine Ensures.bind kill ?_
  rintro _ middle ⟨follows, balance⟩
  simp only [ofCount_building (show 0 < 2 by omega), ofRLP_ok, pure_bind,
    itemAt_pair_first small, first, itemAt_pair_second small]
  refine Ensures.bind (runs_mergeAtAux injective follows.sound merges short
    (StoredRef.mono follows.keeps stored) midValid midViewed
    (show [Item.data (hexPrefix key false)].length < 2 by simp)
    (sizeTRange_of_readLimit small')) ?_
  rintro stream after ⟨rfl, follows', stored', balance'⟩
  have done := result_building
    [Item.data (hexPrefix key false), ref sha3 child']
  simp only [List.cons_append, List.nil_append, List.length_cons,
    List.length_nil] at done ⊢
  rw [done]
  refine Ensures.pure ⟨rfl, follows.trans follows', stored', ?_⟩
  intro exact
  have framed := balance.frame (refs sha3 (.ext key child))
  rw [zero_add] at framed
  exact framed.trans (balance' exact)

theorem merges_branch_cons (injective : Set.InjOn sha3 occurring)
    {children : Nibble → Node} {old : Option TrieValue} {digit : Nibble}
    {path : List Nibble} {child' : Node} {value : TrieValue}
    (merges : MergesTo sha3 occurring fuel false balanced (children digit)
      child' path value)
    (short : (children digit).Short) :
    MergesTo sha3 occurring (fuel + 1) transient balanced
      (.branch children old)
      (.branch (Function.update children digit child') old)
      (digit :: path) value := by
  intro trie key hash inLine sound valid viewed stored mode
  let slots := branchItems (fun other => ref sha3 (children other))
    (slotBytes old)
  have small : (encodeAll slots).length < RLP.readLimit :=
    small_branch_ref sha3 children old
  have updated : branchItems
      (fun other => ref sha3 (Function.update children digit child' other))
      (slotBytes old) =
        slots.take digit.val ++
          ref sha3 child' :: slots.drop (digit.val + 1) := by
    rw [ref_update, branchItems_update]
  have small' := small_branch_ref sha3
    (Function.update children digit child') old
  rw [updated] at small'
  have bound := digit.isLt
  have count : slots.length = 17 := length_branchItems _ _
  have front : (slots.take digit.val).length = digit.val := by
    rw [List.length_take, count]
    omega
  have view : enc sha3 (.branch children old) =
      (Item.list slots).encode := rfl
  have nonempty : ¬ key.size = 0 := by simp [viewed]
  have first : key.index 0 = some digit := by
    rw [NibbleSlice.index_eq, viewed]
    rfl
  have midValid : (key.mid 1).Valid := valid.mid (by simp [viewed])
  have midViewed : (key.mid 1).toList = path := by simp [viewed]
  have read : itemAt (Item.list slots).encode digit.val =
      pure (ref sha3 (children digit)).encode :=
    itemAt_branch small digit
  have kill := runs_killUnless sound mode
  rw [view] at kill ⊢
  rw [mergeAt]
  simp only [isEmpty_encode_list small (by
      intro none
      rw [none] at count
      simp at count),
    nodeCount_encode_list small (.inr count), count, pure_bind,
    Bool.false_eq_true, if_false, nonempty, show ¬ (17 : Nat) = 2 by omega,
    first, inRange_some]
  refine Ensures.bind kill ?_
  rintro _ middle ⟨follows, balance⟩
  rw [ofCount_building (show 0 < 17 by omega), ofRLP_ok, pure_bind]
  refine Ensures.bind (runs_foldlM_slots id count small small'
    (by
      intro stream slot _ other
      simp [other])
    (by
      simp only [id, if_true, read, pure_bind]
      exact runs_mergeAtAux injective follows.sound merges short
        (StoredRef.mono follows.keeps (stored digit)) midValid midViewed
        (by omega) (by
          rw [List.append_cons] at small'
          exact small_prefix small'))) ?_
  rintro stream after ⟨rfl, follows', stored', balance'⟩
  have done := result_building (slots.take digit.val ++
    ref sha3 child' :: slots.drop (digit.val + 1))
  rw [← updated, length_branchItems] at done
  rw [← updated]
  simp only [id, done, ofRLP_ok]
  refine Ensures.pure ⟨rfl, follows.trans follows', ?_, ?_⟩
  · exact stored_update
      (Stored.mono (follows.trans follows').keeps stored) stored'
  · intro exact
    have framed := balance.frame (refs sha3 (.branch children old))
    rw [zero_add] at framed
    have below := (balance' exact).frame
      (∑ other ∈ Finset.univ.erase digit,
        (own sha3 (children other) + refs sha3 (children other)))
    rw [← refs_branch children digit old,
      ← refs_branch_update children digit child' old] at below
    exact framed.trans below

/-! ## Branching -/

/-- The slots of a branch with nothing in it. -/
def emptySlots : List Item := branchItems (fun _ => .data []) []

theorem small_emptySlots : (encodeAll emptySlots).length < RLP.readLimit :=
  small_branch _ (fun _ => by decide) (by decide)

theorem length_emptySlots : emptySlots.length = 17 := length_branchItems _ _

/-- Appending an empty string is copying an empty slot. -/
theorem append_nil_eq_copy {slot : Nat} (stream : RLPStream)
    (inside : slot < 17) :
    ofRLP (stream.append []) =
      (itemAt (Item.list emptySlots).encode slot >>= fun entry =>
        ofRLP (stream.appendRaw entry 1)) := by
  have found : emptySlots[slot]? = some (.data []) := by
    by_cases last : slot = 16
    · subst last
      exact getElem?_branchItems_value
    · exact getElem?_branchItems ⟨slot, by omega⟩
  have append : stream.append [] =
      stream.appendRaw (Item.data []).encode 1 :=
    RLPStream.append_eq (by rw [sizeTRange_eq]; decide)
  rw [itemAt_encode_list found small_emptySlots, pure_bind, append]

variable (sha3) in
theorem item_only (digit : Nibble) (below : Node) :
    item sha3 (.branch (Patricia.Trie.only digit below) none) =
      .list (emptySlots.take digit.val ++
        ref sha3 below :: emptySlots.drop (digit.val + 1)) := by
  have slots : branchItems
      (fun other => ref sha3 (Patricia.Trie.only digit below other)) [] =
        emptySlots.take digit.val ++
          ref sha3 below :: emptySlots.drop (digit.val + 1) := by
    have empty : (fun _ : Nibble => ref sha3 .null) =
        fun _ => Item.data [] := by
      funext other
      exact ref_null sha3
    rw [Patricia.Trie.only, ref_update (fun _ => .null) digit below,
      branchItems_update, empty]
    rfl
  rw [← slots]
  rfl

theorem refs_only (digit : Nibble) (below : Node) :
    refs sha3 (.branch (Patricia.Trie.only digit below) none) =
      own sha3 below + refs sha3 below := by
  have none : own sha3 (.null : Node) = 0 := rfl
  rw [Patricia.Trie.only, refs_branch_update]
  simp [none, refs]

theorem stored_only {digit : Nibble} {below : Node}
    (stored : StoredRef sha3 trie below) :
    Stored sha3 trie (.branch (Patricia.Trie.only digit below) none) := by
  have empty : Stored sha3 trie (.branch (fun _ => .null) none) :=
    fun _ => ⟨fun large => absurd (by decide : (1 : Nat) < 32) large, trivial⟩
  exact stored_update empty stored

variable (sha3) in
/-- The end of `branch`: all slots empty but one. -/
theorem runs_branchLoop {step : RLPStream → Nat → TrieM RLPStream}
    [∀ stream slot, Keeps (step stream slot)] (digit : Nibble) (below : Node)
    (post : GenericTrieDB → Prop)
    (others : ∀ stream slot, slot ≠ digit.val →
      step stream slot = ofRLP (stream.append []))
    (here : Runs occurring
      (step (building 17 (emptySlots.take digit.val)) digit.val) trie
      fun stream after =>
        stream = building 17 (emptySlots.take digit.val ++ [ref sha3 below]) ∧
          post after) :
    Runs occurring
      (do
        let stream ← (List.range 16).foldlM step (building 17 [])
        let stream ← ofRLP (stream.append [])
        ofRLP stream.result) trie
      fun text after =>
        text = enc sha3 (.branch (Patricia.Trie.only digit below) none) ∧
          post after := by
  have bound := digit.isLt
  have last : ∀ stream : RLPStream, ofRLP (stream.append []) =
      step stream 16 := fun stream => (others stream 16 (by omega)).symm
  have whole : (do
      let stream ← (List.range 16).foldlM step (building 17 [])
      let stream ← ofRLP (stream.append [])
      ofRLP stream.result) = (do
        let stream ← (List.range 17).foldlM step (building 17 [])
        ofRLP stream.result) := by
    rw [show List.range 17 = List.range 16 ++ [16] from rfl,
      List.foldlM_append]
    simp only [last, List.foldlM_cons, List.foldlM_nil, bind_assoc, pure_bind]
  have encoded : item sha3 (.branch (Patricia.Trie.only digit below) none) =
      .list (emptySlots.take digit.val ++
        ref sha3 below :: emptySlots.drop (digit.val + 1)) :=
    item_only sha3 digit below
  have small' : (encodeAll (emptySlots.take digit.val ++
      ref sha3 below :: emptySlots.drop (digit.val + 1))).length <
        RLP.readLimit := by
    have readable := small_branch_ref sha3 (Patricia.Trie.only digit below)
      none
    have items := Item.list.inj encoded
    rw [← items]
    exact readable
  rw [whole]
  refine Ensures.bind (runs_foldlM_slots id length_emptySlots
    small_emptySlots small' (by
      intro stream slot inside other
      rw [id, others stream slot other, append_nil_eq_copy stream inside]
      simp only [id, bind_pure]) here) ?_
  rintro stream after ⟨rfl, holds⟩
  have done := result_building (emptySlots.take digit.val ++
    ref sha3 below :: emptySlots.drop (digit.val + 1))
  have count : (emptySlots.take digit.val ++
      ref sha3 below :: emptySlots.drop (digit.val + 1)).length = 17 := by
    simp only [List.length_append, List.length_take, List.length_cons,
      List.length_drop, length_emptySlots]
    omega
  rw [count] at done
  rw [id, done, ← encoded]
  exact Ensures.pure ⟨rfl, holds⟩

/-- `branch` on a leaf with an empty key. -/
theorem runs_branch_leaf_nil (sound : Sound sha3 occurring trie)
    (old : TrieValue) :
    Runs occurring (branch sha3 (enc sha3 (.leaf [] old))) trie
      fun text after =>
        text = enc sha3 (Patricia.Trie.branchLeaf [] old) ∧
          Follows sha3 occurring trie after ∧
          Stored sha3 after (Patricia.Trie.branchLeaf [] old) ∧
          Balance trie after (own sha3 (.leaf [] old))
            (refs sha3 (Patricia.Trie.branchLeaf [] old)) := by
  have small : SmallPair [] true (.data old.val) :=
    small_pair true (by decide) (encode_value_length old)
  have view : enc sha3 (.leaf [] old) =
      (pairItem [] true (.data old.val)).encode := rfl
  have small' := small_branch_ref sha3 (fun _ => .null) (some old)
  have slots : (fun _ : Nibble => ref sha3 .null) =
      fun _ => Item.data [] := by
    funext other
    exact ref_null sha3
  have items : item sha3 (Patricia.Trie.branchLeaf [] old) =
      .list (emptySlots.take 16 ++ [.data old.val]) := by
    have expanded : item sha3 (Patricia.Trie.branchLeaf [] old) =
        .list (branchItems (fun _ => ref sha3 .null) old.val) := rfl
    rw [expanded, slots]
    rfl
  have fits : (encodeAll (emptySlots.take 16 ++ [.data old.val])).length <
      RLP.readLimit := by
    rw [slots] at small'
    exact small'
  have copied : (List.range' 0 16).foldlM
      (fun (stream : RLPStream) (_ : Nat) => ofRLP (stream.append []))
      (id (building 17 [])) =
        pure (id (building 17 ([] ++ (emptySlots.drop 0).take 16))) :=
    foldlM_copy id
      (fun stream slot _ upper => by
        rw [id, append_nil_eq_copy stream (show slot < 17 by omega)]
        simp only [id, bind_pure])
      (by rw [length_emptySlots]; omega) small_emptySlots (by simp) (by
        rw [List.nil_append, List.drop_zero]
        exact small_prefix fits)
  rw [← List.range_eq_range'] at copied
  simp only [id, List.nil_append, List.drop_zero] at copied
  have last : (building 17 (emptySlots.take 16)).appendRaw
      (Item.data old.val).encode 1 =
        .ok (building 17 (emptySlots.take 16 ++ [.data old.val])) :=
    appendRaw_building (by
      rw [List.length_take, length_emptySlots]
      omega) (sizeTRange_of_readLimit fits)
  have done := result_building (emptySlots.take 16 ++ [.data old.val])
  have count : (emptySlots.take 16 ++ [Item.data old.val]).length = 17 := by
    rw [List.length_append, List.length_take, length_emptySlots]
    rfl
  rw [count] at done
  have kill := runs_killNode sound (.leaf [] old)
  rw [view] at kill ⊢
  unfold branch
  simp only [itemCount_pair small, isList_pair small, pure_bind,
    beq_self_eq_true, Bool.and_self, assert_true]
  refine Ensures.bind kill ?_
  rintro _ after ⟨follows, balance⟩
  simp only [keyOf_pair small, pure_bind,
    ofCount_building (show 0 < 17 by omega), ofRLP_ok, NibbleSlice.size_eq,
    toList_keySlice, List.length_nil, if_true, isLeaf_pair small, assert_true,
    copied, itemAt_pair_second small, last, done]
  refine Ensures.pure ⟨?_, follows, ?_, ?_⟩
  · rw [enc, items]
  · exact fun _ => ⟨fun large => absurd (by decide : (1 : Nat) < 32) large,
      trivial⟩
  · have none : refs sha3 (Patricia.Trie.branchLeaf [] old) = 0 := by
      have zero : own sha3 (.null : Node) = 0 := rfl
      simp [Patricia.Trie.branchLeaf, refs, zero]
    rw [none]
    exact balance

variable (sha3) in
/-- How the node under a branch comes out of a pair whose key loses its first
nibble: as a shorter pair, or as the child the pair pointed to. -/
def Shortens (trie : GenericTrieDB) (node below : Node) (rest : List Nibble)
    (leaf : Bool) (second : Item) : Prop :=
  ((leaf = true ∨ rest ≠ []) ∧
    enc sha3 below = (pairItem rest leaf second).encode ∧
    SmallPair rest leaf second ∧ Stored sha3 trie below ∧
    refs sha3 node = refs sha3 below) ∨
  (leaf = false ∧ rest = [] ∧ second = ref sha3 below ∧
    StoredRef sha3 trie below ∧
    refs sha3 node = own sha3 below + refs sha3 below)

/-- `branch` on a pair with a nonempty key. -/
theorem runs_branch_cons (injective : Set.InjOn sha3 occurring)
    (sound : Sound sha3 occurring trie) {digit : Nibble} {rest : List Nibble}
    {leaf : Bool} {second : Item} {node below : Node}
    (view : enc sha3 node = (pairItem (digit :: rest) leaf second).encode)
    (small : SmallPair (digit :: rest) leaf second)
    (shortens : Shortens sha3 trie node below rest leaf second) :
    Runs occurring (branch sha3 (enc sha3 node)) trie fun text after =>
      text = enc sha3 (.branch (Patricia.Trie.only digit below) none) ∧
        Follows sha3 occurring trie after ∧
        Stored sha3 after (.branch (Patricia.Trie.only digit below) none) ∧
        Balance trie after (own sha3 node + refs sha3 node)
          (refs sha3 (.branch (Patricia.Trie.only digit below) none)) := by
  have bound := digit.isLt
  have kill := runs_killNode sound node
  have nonempty : ¬ (keySlice (digit :: rest) leaf).size = 0 := by simp
  have first : (keySlice (digit :: rest) leaf).index 0 = some digit := by
    rw [NibbleSlice.index_eq, toList_keySlice]
    rfl
  have front : (emptySlots.take digit.val).length = digit.val := by
    rw [List.length_take, length_emptySlots]
    omega
  have room : (emptySlots.take digit.val).length < 17 := by omega
  have fits : (encodeAll (emptySlots.take digit.val ++
      [ref sha3 below])).length < sizeTRange := by
    have readable := small_branch_ref sha3 (Patricia.Trie.only digit below)
      none
    have items := Item.list.inj (item_only sha3 digit below)
    have small' : (encodeAll (branchItems
        (fun other => ref sha3 (Patricia.Trie.only digit below other))
        (slotBytes none))).length < RLP.readLimit := readable
    rw [show branchItems
        (fun other => ref sha3 (Patricia.Trie.only digit below other))
        (slotBytes none) = _ from items, List.append_cons] at small'
    exact small_prefix small'
  rw [view] at kill ⊢
  unfold branch
  simp only [itemCount_pair small, isList_pair small, pure_bind,
    beq_self_eq_true, Bool.and_self, assert_true]
  refine Ensures.bind kill ?_
  rintro _ middle ⟨follows, balance⟩
  simp only [keyOf_pair small, pure_bind,
    ofCount_building (show 0 < 17 by omega), ofRLP_ok, if_neg nonempty, first,
    inRange_some, isLeaf_pair small, itemAt_pair_second small]
  refine (runs_branchLoop sha3 digit below (fun after =>
    Follows sha3 occurring trie after ∧ StoredRef sha3 after below ∧
      Balance trie after (own sha3 node + refs sha3 node)
        (own sha3 below + refs sha3 below)) ?_ ?_).mono ?_
  · intro stream slot other
    simp [other]
  · simp only [if_true]
    have framed := balance.frame (refs sha3 node)
    rw [zero_add] at framed
    rcases shortens with ⟨longer, below', small', stored, same⟩ |
      ⟨rfl, rfl, rfl, stored, same⟩
    · have taken : (leaf || decide (1 < (keySlice (digit :: rest)
          leaf).size)) = true := by
        rcases longer with rfl | longer
        · rfl
        · have length := List.length_pos_of_ne_nil longer
          simp
          omega
      have key : ((keySlice (digit :: rest) leaf).mid 1).hexPrefixEncode
          leaf = hexPrefix rest leaf := by
        rw [NibbleSlice.hexPrefixEncode_eq leaf
          ((valid_keySlice _ _).mid (by simp))]
        simp
      have written : rlpList (RLPStream.append (hexPrefix rest leaf))
          (RLPStream.appendRaw second.encode 1) =
            pure (enc sha3 below) := by
        rw [below']
        exact rlpList_eq (appends_append _) (appends_appendRaw _) small'
      rw [if_pos taken, key, written, pure_bind]
      refine (runs_streamNode injective follows.sound below room fits).mono ?_
      rintro stream after ⟨rfl, follows', held, balance'⟩
      refine ⟨rfl, follows.trans follows', ⟨held, ?_⟩, ?_⟩
      · exact stored.mono (follows.trans follows').keeps
      · have produced := balance'.frame (refs sha3 below)
        rw [zero_add] at produced
        rw [same] at framed ⊢
        exact framed.trans produced
    · have direct : (false || decide (1 < (keySlice [digit] false).size)) =
          false := by simp
      rw [if_neg (by rw [direct]; exact Bool.false_ne_true),
        appendRaw_building room fits]
      refine Ensures.pure ⟨rfl, follows, stored.mono follows.keeps, ?_⟩
      rw [same] at framed ⊢
      exact framed
  · rintro text after ⟨rfl, follows', stored', balance'⟩
    refine ⟨rfl, follows', stored_only stored', ?_⟩
    rw [refs_only]
    exact balance'

/-! ## Cleaving -/

/-- `cleve` on a pair: a shorter pair under an extension. -/
theorem runs_cleve (injective : Set.InjOn sha3 occurring)
    (sound : Sound sha3 occurring trie) {common rest : List Nibble}
    {leaf : Bool} {second : Item} {node bottom : Node}
    (view : enc sha3 node = (pairItem (common ++ rest) leaf second).encode)
    (small : SmallPair (common ++ rest) leaf second)
    (bottomView : enc sha3 bottom = (pairItem rest leaf second).encode)
    (small' : SmallPair rest leaf second) (nonempty : common ≠ [])
    (short : common.length < 2 ^ 32) (stored : Stored sha3 trie bottom)
    (same : refs sha3 node = refs sha3 bottom) :
    Runs occurring (cleve sha3 (enc sha3 node) common.length) trie
      fun text after =>
        text = enc sha3 (.ext common bottom) ∧
          Follows sha3 occurring trie after ∧
          Stored sha3 after (.ext common bottom) ∧
          Balance trie after (own sha3 node + refs sha3 node)
            (refs sha3 (.ext common bottom)) := by
  have kill := runs_killNode sound node
  have positive := List.length_pos_of_ne_nil nonempty
  have inside : common.length ≤
      (keySlice (common ++ rest) leaf).toList.length := by simp
  have checked : (decide (common.length ≠ 0) &&
      decide (common.length ≤ (keySlice (common ++ rest) leaf).size)) =
        true := by
    have nonzero : common.length ≠ 0 := by omega
    simp [nonempty]
  have lower : (keySlice (common ++ rest) leaf).hexPrefixEncode leaf
      common.length = hexPrefix rest leaf := by
    rw [NibbleSlice.hexPrefixEncode_drop leaf (valid_keySlice _ _) inside]
    simp
  have upper : (keySlice (common ++ rest) leaf).hexPrefixEncode false 0
      common.length = hexPrefix common false := by
    rw [NibbleSlice.hexPrefixEncode_take false (valid_keySlice _ _) inside]
    simp
  have written : rlpList (RLPStream.append (hexPrefix rest leaf))
      (RLPStream.appendRaw second.encode 1) = pure (enc sha3 bottom) := by
    rw [bottomView]
    exact rlpList_eq (appends_append _) (appends_appendRaw _) small'
  have bound := encode_reference_length sha3 (item sha3 bottom)
  have smallTop : SmallPair common false (ref sha3 bottom) :=
    small_pair false short (Nat.lt_of_le_of_lt bound (by decide))
  have first : (building 2 []).append (hexPrefix common false) =
      .ok (building 2 [.data (hexPrefix common false)]) :=
    append_building (by simp) (small_first smallTop)
  have done := result_building
    [Item.data (hexPrefix common false), ref sha3 bottom]
  rw [view] at kill ⊢
  unfold cleve
  refine Ensures.bind kill ?_
  rintro _ middle ⟨follows, balance⟩
  simp only [itemCount_pair small, isList_pair small, pure_bind,
    beq_self_eq_true, Bool.and_self, assert_true, keyOf_pair small, checked,
    isLeaf_pair small, itemAt_pair_second small, lower, upper, written,
    ofCount_building (show 0 < 2 by omega), ofRLP_ok, first]
  refine Ensures.bind (runs_streamNode injective follows.sound bottom
    (show [Item.data (hexPrefix common false)].length < 2 by simp)
    (sizeTRange_of_readLimit smallTop)) ?_
  rintro stream after ⟨rfl, follows', held, balance'⟩
  simp only [List.cons_append, List.nil_append, List.length_cons,
    List.length_nil] at done ⊢
  rw [done]
  refine Ensures.pure ⟨rfl, follows.trans follows', ⟨held, ?_⟩, ?_⟩
  · exact stored.mono (follows.trans follows').keeps
  · have framed := balance.frame (refs sha3 node)
    have produced := balance'.frame (refs sha3 bottom)
    rw [zero_add] at framed produced
    rw [same] at framed ⊢
    exact framed.trans produced

/-! ## Parting from a pair -/

theorem MergesTo.weaken {weaker : Prop} {node target : Node}
    {path : List Nibble} {value : TrieValue}
    (merges : MergesTo sha3 occurring fuel transient balanced node target path
      value) (implies : weaker → balanced) :
    MergesTo sha3 occurring fuel transient weaker node target path value := by
  intro trie key hash inLine sound valid viewed stored mode
  refine (merges trie key hash inLine sound valid viewed stored mode).mono ?_
  rintro text after ⟨same, follows, stored', balance⟩
  exact ⟨same, follows, stored', fun holds => balance (implies holds)⟩

/-- A value added to a branch that was just built. -/
theorem merges_put (injective : Set.InjOn sha3 occurring)
    {children : Nibble → Node} {old : Option TrieValue}
    {right : List Nibble} {value : TrieValue}
    (free : ∀ digit path, right = digit :: path → children digit = .null)
    (short : right.length < 2 ^ 32) :
    MergesTo sha3 occurring (fuel + 2) true (right ≠ [])
      (.branch children old)
      (Patricia.Trie.put (.branch children old) right value) right value := by
  cases right with
  | nil => exact merges_branch_nil.weaken (fun nonempty => absurd rfl nonempty)
  | cons digit path =>
      have empty := free digit path rfl
      have below : MergesTo sha3 occurring (fuel + 1) false True
          (children digit) (.leaf path value) path value := by
        rw [empty]
        refine merges_null ?_
        simp only [List.length_cons] at short
        omega
      have shortChild : (children digit).Short := by
        rw [empty]
        trivial
      exact (merges_branch_cons injective below shortChild).weaken
        (fun _ => trivial)

/-- The conditions of `mergeAt` on a pair whose key parts from the path. -/
theorem parted_conditions {left right : List Nibble} {leaf : Bool}
    {key : NibbleSlice} (parted : Patricia.Parted left right)
    (stays : leaf = false → left ≠ []) (valid : key.Valid)
    (common : List Nibble) (viewed : key.toList = common ++ right) :
    ((keySlice (common ++ left) leaf).equals key && (leaf == true)) = false ∧
      (key.contains (keySlice (common ++ left) leaf) && (leaf == false)) =
        false ∧
      key.shared (keySlice (common ++ left) leaf) = common.length := by
  have different : left ≠ right := by
    rintro rfl
    cases left with
    | nil => exact parted
    | cons digit left => exact parted rfl
  refine ⟨?_, ?_, ?_⟩
  · rw [NibbleSlice.equals_eq (valid_keySlice _ _) valid]
    simp [viewed, different]
  · rw [NibbleSlice.contains_eq valid (valid_keySlice _ _), toList_keySlice,
      viewed]
    cases leaf with
    | true => simp
    | false =>
        have nonempty := stays rfl
        have outside : ¬ left <+: right := by
          match left, right with
          | [], _ => exact absurd rfl nonempty
          | digit :: left, [] => simp
          | digit :: left, other :: right =>
              intro inside
              exact parted (List.cons_prefix_cons.mp inside).1
        simp [List.prefix_append_right_inj, outside]
  · rw [NibbleSlice.shared_eq valid (valid_keySlice _ _), toList_keySlice,
      viewed, Patricia.shared_append]
    have none : Patricia.shared right left = 0 := by
      rw [Patricia.shared_comm, Patricia.shared_of_parted parted]
    rw [none, Nat.add_zero]

/-- A pair that shares nothing with the path is turned into a branch. -/
theorem merges_by_branch {left right : List Nibble} {leaf : Bool}
    {second : Item} {node branched target : Node} {value : TrieValue}
    (parted : Patricia.Parted left right)
    (stays : leaf = false → left ≠ [])
    (view : enc sha3 node = (pairItem left leaf second).encode)
    (small : SmallPair left leaf second) (short : branched.Short)
    (branching : ∀ trie, Sound sha3 occurring trie → Stored sha3 trie node →
      Runs occurring (branch sha3 (enc sha3 node)) trie fun text after =>
        text = enc sha3 branched ∧ Follows sha3 occurring trie after ∧
          Stored sha3 after branched ∧
          Balance trie after (own sha3 node + refs sha3 node)
            (refs sha3 branched))
    (next : MergesTo sha3 occurring fuel true balanced branched target right
      value) :
    MergesTo sha3 occurring (fuel + 1) false balanced node target right
      value := by
  intro trie key hash inLine sound valid viewed stored mode
  obtain ⟨other, stay, shared⟩ := parted_conditions parted stays valid []
    (by simpa using viewed)
  simp only [List.nil_append, List.length_nil] at other stay shared
  have run := branching trie sound stored
  rw [view] at run ⊢
  rw [mergeAt]
  simp only [isEmpty_pair small, nodeCount_pair small, keyOf_pair small,
    andLeaf_pair small, other, stay, shared, pure_bind, Bool.false_eq_true,
    if_false, if_true, ne_eq, not_true_eq_false]
  refine Ensures.bind run ?_
  rintro text middle ⟨rfl, follows, stored', balance⟩
  rw [rlpOf_enc short, pure_bind]
  refine (next middle key _ true follows.sound valid viewed stored'
    (by simp)).mono ?_
  rintro text after ⟨rfl, follows', stored'', balance'⟩
  refine ⟨rfl, follows.trans follows', stored'', ?_⟩
  intro exact
  have second' := balance' exact
  simp only [if_true, zero_add] at second'
  simpa using balance.trans second'

/-- A pair that shares a prefix with the path is cleft there first. -/
theorem merges_by_cleve (injective : Set.InjOn sha3 occurring)
    {common left right : List Nibble} {leaf : Bool} {second : Item}
    {node bottom target : Node} {value : TrieValue}
    (parted : Patricia.Parted left right)
    (stays : leaf = false → left ≠ []) (nonempty : common ≠ [])
    (view : enc sha3 node = (pairItem (common ++ left) leaf second).encode)
    (small : SmallPair (common ++ left) leaf second)
    (bottomView : enc sha3 bottom = (pairItem left leaf second).encode)
    (small' : SmallPair left leaf second)
    (shortKey : common.length < 2 ^ 32) (short : bottom.Short)
    (storedBottom : ∀ trie, Stored sha3 trie node → Stored sha3 trie bottom)
    (same : refs sha3 node = refs sha3 bottom)
    (next : MergesTo sha3 occurring fuel false balanced bottom target right
      value) :
    MergesTo sha3 occurring (fuel + 2) false balanced node
      (.ext common target) (common ++ right) value := by
  intro trie key hash inLine sound valid viewed stored mode
  obtain ⟨other, stay, shared⟩ :=
    parted_conditions parted stays valid common viewed
  have nonzero : ¬ common.length = 0 := by
    simpa using nonempty
  have run := runs_cleve injective sound view small bottomView small' nonempty
    shortKey (storedBottom trie stored) same
  have top : Node.Short (.ext common bottom) := ⟨shortKey, short⟩
  rw [view] at run ⊢
  rw [mergeAt]
  simp only [isEmpty_pair small, nodeCount_pair small, keyOf_pair small,
    andLeaf_pair small, other, stay, shared, pure_bind, Bool.false_eq_true,
    if_false, if_true, ne_eq, nonzero, not_false_eq_true]
  refine Ensures.bind run ?_
  rintro text middle ⟨rfl, follows, stored', balance⟩
  rw [rlpOf_enc top, pure_bind]
  have down : MergesTo sha3 occurring (fuel + 1) true balanced
      (.ext common bottom) (.ext common target) (common ++ right) value :=
    merges_ext injective next shortKey short
  refine (down middle key _ true follows.sound valid viewed stored'
    (by simp)).mono ?_
  rintro text after ⟨rfl, follows', stored'', balance'⟩
  refine ⟨rfl, follows.trans follows', stored'', ?_⟩
  intro exact
  have second' := balance' exact
  simp only [if_true, zero_add] at second'
  simpa using balance.trans second'

/-! ## Inserting -/

open Patricia Patricia.Trie

theorem merges_leaf_parted (injective : Set.InjOn sha3 occurring)
    {left right : List Nibble} {old value : TrieValue}
    (parted : Parted left right) (shortLeft : left.length < 2 ^ 32)
    (shortRight : right.length < 2 ^ 32) :
    MergesTo sha3 occurring (fuel + 3) false (right ≠ []) (.leaf left old)
      (put (branchLeaf left old) right value) right value := by
  have small : SmallPair left true (.data old.val) :=
    small_pair true shortLeft (encode_value_length old)
  cases left with
  | nil =>
      have short : Node.Short (branchLeaf [] old) := fun _ => trivial
      refine merges_by_branch parted (by simp) rfl small short ?_
        (merges_put injective (fun _ _ _ => rfl) shortRight)
      intro trie sound stored
      refine (runs_branch_leaf_nil sound old).mono ?_
      rintro text after ⟨same, follows, stored', balance⟩
      refine ⟨same, follows, stored', ?_⟩
      rw [show refs sha3 (.leaf [] old) = 0 from rfl, add_zero]
      exact balance
  | cons digit left =>
      have shortRest : left.length < 2 ^ 32 := by
        rw [List.length_cons] at shortLeft
        omega
      have shortChild : Node.Short (.leaf left old) := shortRest
      refine merges_by_branch parted (by simp) rfl small ?_ ?_
        (merges_put injective ?_ shortRight)
      · intro other
        by_cases same : other = digit
        · subst same
          simpa [only] using shortChild
        · simp [only, same, Node.Short]
      · intro trie sound stored
        exact runs_branch_cons injective sound rfl small (.inl ⟨.inl rfl, rfl,
          small_pair true shortRest (encode_value_length old), trivial, rfl⟩)
      · rintro other path rfl
        have different : other ≠ digit := Ne.symm parted
        simp [only, different]

theorem merges_ext_parted (injective : Set.InjOn sha3 occurring)
    {left right : List Nibble} {child : Node} {value : TrieValue}
    (parted : Parted left right) (nonempty : left ≠ [])
    (shortLeft : left.length < 2 ^ 32) (shortChild : child.Short)
    (shortRight : right.length < 2 ^ 32) :
    MergesTo sha3 occurring (fuel + 3) false (right ≠ []) (.ext left child)
      (put (branchExt left child) right value) right value := by
  have bound := Nat.lt_of_le_of_lt
    (encode_reference_length sha3 (item sha3 child)) (show 33 < 2 ^ 57 by
      decide)
  have small : SmallPair left false (ref sha3 child) :=
    small_pair false shortLeft bound
  obtain ⟨digit, left, rfl⟩ := List.exists_cons_of_ne_nil nonempty
  have shortRest : left.length < 2 ^ 32 := by
    rw [List.length_cons] at shortLeft
    omega
  have shortBelow : Node.Short (wrap left child) := by
    cases left with
    | nil => exact shortChild
    | cons next left => exact ⟨shortRest, shortChild⟩
  refine merges_by_branch parted (by simp) rfl small ?_ ?_
    (merges_put injective ?_ shortRight)
  · intro other
    by_cases same : other = digit
    · subst same
      simpa [only] using shortBelow
    · simp [only, same, Node.Short]
  · intro trie sound stored
    refine runs_branch_cons injective sound rfl small ?_
    cases left with
    | nil => exact .inr ⟨rfl, rfl, rfl, stored, rfl⟩
    | cons next left =>
        exact .inl ⟨.inr (by simp), rfl, small_pair false shortRest bound,
          stored, rfl⟩
  · rintro other path rfl
    have different : other ≠ digit := Ne.symm parted
    simp [only, different]

/-- No key of the trie continues the path. -/
def NotInside (node : Node) (path : List Nibble) : Prop :=
  ∀ other value, node.get other = some value → path <+: other → other = path

theorem merges_leaf_fork (injective : Set.InjOn sha3 occurring)
    {common left right : List Nibble} {old value : TrieValue}
    (parted : Parted left right)
    (shortLeft : (common ++ left).length < 2 ^ 32)
    (shortRight : right.length < 2 ^ 32) :
    MergesTo sha3 occurring (fuel + 5) false (right ≠ [])
      (.leaf (common ++ left) old)
      (wrap common (put (branchLeaf left old) right value)) (common ++ right)
      value := by
  rw [List.length_append] at shortLeft
  cases common with
  | nil =>
      exact merges_leaf_parted injective parted (by simpa using shortLeft)
        shortRight
  | cons digit common =>
      have shortBottom : left.length < 2 ^ 32 := by omega
      have next : MergesTo sha3 occurring (fuel + 3) false (right ≠ [])
          (.leaf left old) (put (branchLeaf left old) right value) right
          value := merges_leaf_parted injective parted shortBottom shortRight
      have bottomShort : Node.Short (.leaf left old) := shortBottom
      have stored : ∀ trie, Stored sha3 trie
          (.leaf (digit :: common ++ left) old) →
            Stored sha3 trie (.leaf left old) := fun _ _ => trivial
      exact merges_by_cleve injective parted (by simp) (by simp) rfl
        (small_pair true (by rw [List.length_append]; omega)
          (encode_value_length old)) rfl
        (small_pair true shortBottom (encode_value_length old)) (by omega)
        bottomShort stored rfl next

theorem merges_ext_fork (injective : Set.InjOn sha3 occurring)
    {common left right : List Nibble} {child : Node} {value : TrieValue}
    (parted : Parted left right) (nonempty : left ≠ [])
    (shortLeft : (common ++ left).length < 2 ^ 32)
    (shortChild : child.Short) (shortRight : right.length < 2 ^ 32) :
    MergesTo sha3 occurring (fuel + 5) false (right ≠ [])
      (.ext (common ++ left) child)
      (wrap common (put (branchExt left child) right value))
      (common ++ right) value := by
  have bound := Nat.lt_of_le_of_lt
    (encode_reference_length sha3 (item sha3 child)) (show 33 < 2 ^ 57 by
      decide)
  rw [List.length_append] at shortLeft
  cases common with
  | nil =>
      exact merges_ext_parted injective parted nonempty
        (by simpa using shortLeft) shortChild shortRight
  | cons digit common =>
      have shortBottom : left.length < 2 ^ 32 := by omega
      have next : MergesTo sha3 occurring (fuel + 3) false (right ≠ [])
          (.ext left child) (put (branchExt left child) right value) right
          value := merges_ext_parted injective parted nonempty shortBottom
            shortChild shortRight
      have bottomShort : Node.Short (.ext left child) :=
        ⟨shortBottom, shortChild⟩
      have stored : ∀ trie, Stored sha3 trie
          (.ext (digit :: common ++ left) child) →
            Stored sha3 trie (.ext left child) := fun _ held => held
      exact merges_by_cleve injective parted (fun _ => nonempty) (by simp) rfl
        (small_pair false (by rw [List.length_append]; omega) bound) rfl
        (small_pair false shortBottom bound) (by omega) bottomShort stored rfl
        next

/-- `mergeAt` inserts into the trie, and if no key continues the path, the
reference counts come out right. -/
theorem merges_insert (injective : Set.InjOn sha3 occurring) {node : Node}
    (canonical : node.Canonical) (short : node.Short) {path : List Nibble}
    (shortPath : path.length < 2 ^ 32) (value : TrieValue)
    (enough : path.length + 5 ≤ fuel) :
    MergesTo sha3 occurring fuel false (NotInside node path) node
      (node.insert path value) path value := by
  induction node generalizing path fuel with
  | null =>
      obtain ⟨fuel, rfl⟩ : ∃ less, fuel = less + 1 := ⟨fuel - 1, by omega⟩
      exact (merges_null shortPath).weaken (fun _ => trivial)
  | leaf key old =>
      obtain ⟨fuel, rfl⟩ : ∃ less, fuel = less + 5 := ⟨fuel - 5, by omega⟩
      by_cases same : key = path
      · subst same
        simp only [Trie.insert, if_true]
        exact (merges_leaf_same shortPath).weaken (fun _ => trivial)
      · obtain ⟨common, left, right, rfl, rfl, parted⟩ := exists_parted same
        simp only [Trie.insert, same, if_false, fork_append parted]
        rw [List.length_append] at shortPath
        refine (merges_leaf_fork injective parted short (by omega)).weaken ?_
        intro outside none
        subst none
        have equal := outside (common ++ left) old (by simp)
          (by simp)
        exact same equal
  | ext key child induction =>
      obtain ⟨nonempty, branch, inner⟩ := canonical
      obtain ⟨shortKey, shortChild⟩ := short
      have positive := List.length_pos_of_ne_nil nonempty
      by_cases inside : key <+: path
      · obtain ⟨path, rfl⟩ := inside
        rw [List.length_append] at shortPath enough
        obtain ⟨fuel, rfl⟩ : ∃ less, fuel = less + 1 := ⟨fuel - 1, by omega⟩
        simp only [Trie.insert, List.prefix_append, if_true, List.drop_left]
        refine merges_ext injective
          ((induction inner shortChild (by omega) (by omega)).weaken ?_)
          shortKey shortChild
        intro outside other found held continues
        have equal := outside (key ++ other) found (by simpa using held)
          (by simpa using continues)
        simpa using equal
      · obtain ⟨fuel, rfl⟩ : ∃ less, fuel = less + 5 := ⟨fuel - 5, by omega⟩
        have different : key ≠ path := by
          intro same
          exact inside (by rw [same])
        obtain ⟨common, left, right, rfl, rfl, parted⟩ :=
          exists_parted different
        have longer : left ≠ [] := by
          intro none
          exact inside (by simp [none])
        simp only [Trie.insert, inside, if_false, fork_append parted]
        rw [List.length_append] at shortPath
        refine (merges_ext_fork injective parted longer shortKey shortChild
          (by omega)).weaken ?_
        intro outside none
        subst none
        obtain ⟨below, found, held⟩ :=
          inner.exists_get (ne_null_of_isBranch branch)
        have equal := outside (common ++ left ++ below) found
          (by rwa [get_ext_append]) (by simp [List.append_assoc])
        have empty : left ++ below = [] := by simpa using equal
        exact longer (List.append_eq_nil_iff.mp empty).1
  | branch children old induction =>
      obtain ⟨fuel, rfl⟩ : ∃ less, fuel = less + 1 := ⟨fuel - 1, by omega⟩
      cases path with
      | nil => exact merges_branch_nil.weaken (fun _ => rfl)
      | cons digit path =>
          rw [List.length_cons] at shortPath enough
          refine merges_branch_cons injective
            ((induction digit (canonical.1 digit) (short digit) (by omega)
              (by omega)).weaken ?_) (short digit)
          intro outside other found held continues
          have equal := outside (digit :: other) found (by simpa using held)
            (List.cons_prefix_cons.mpr ⟨rfl, continues⟩)
          simpa using equal

end Aecmio
