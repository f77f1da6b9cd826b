import Aecmio.Trie.Compacting
import Aecmio.Trie.Removable

/-!
# Removal refines the Patricia trie

`deleteAt` on the encoding of a trie returns the encoding of the trie with
the key erased, and the empty string where the key is not there.  It does so
on the paths that `Removable` describes; what happens on the others is shown
in the module on failing removals.
-/

namespace Aecmio

set_option synthInstance.maxSize 1024

open Item TrieM Traced Node Patricia Patricia.Trie

/-- The code does not take the value for a reference to a pair. -/
def Plain (trie : GenericTrieDB) (value : TrieValue) : Prop :=
  (isTwoItemNode (Item.data value.val).encode).run trie = .ok false trie

variable (sha3 : Bytes → H256) (occurring : Set Bytes)

/-- The contract of a call of `deleteAt`. -/
def DeletesTo (fuel : Nat) (trie : GenericTrieDB) (node : Node)
    (path : List Nibble) (outcome : Option Node) : Prop :=
  ∀ key : NibbleSlice, key.Valid → key.toList = path →
    match outcome with
    | none => (deleteAt sha3 fuel (enc sha3 node) key).run trie = .ok [] trie
    | some target =>
        Runs occurring (deleteAt sha3 fuel (enc sha3 node) key) trie
          fun text after =>
            text = enc sha3 target ∧ Follows sha3 occurring trie after ∧
            Stored sha3 after target ∧
            (target = .null → after.db.lookup = trie.db.lookup) ∧
            Balance trie after (own sha3 node + refs sha3 node)
              (refs sha3 target)

variable {sha3} {occurring} {fuel : Nat} {trie : GenericTrieDB}

/-! ## Leaves -/

/-- A killed node can still be looked up. -/
theorem lookup_killNode {text : Bytes} {after : GenericTrieDB}
    (sound : Sound sha3 occurring trie)
    (ran : (killNode sha3 text).run trie = .ok () after) :
    after.db.lookup = trie.db.lookup := by
  unfold killNode at ran
  split at ran
  · obtain rfl : { trie with db := (trie.db.kill (sha3 text)).1 } = after := by
      injection ran
    funext hash
    rw [MemoryDB.lookup_eq_content (by simpa using sound.plain),
      MemoryDB.lookup_eq_content sound.plain, MemoryDB.content_kill]
  · obtain rfl : trie = after := by injection ran
    rfl

theorem deletes_leaf (sound : Sound sha3 occurring trie)
    {key path : List Nibble} {value : TrieValue}
    (short : key.length < 2 ^ 32) (removable : key <+: path → key = path) :
    DeletesTo sha3 occurring (fuel + 1) trie (.leaf key value) path
      (if key = path then some .null else none) := by
  intro slice valid viewed
  have small : SmallPair key true (.data value.val) :=
    small_pair true short (encode_value_length value)
  have view : enc sha3 (.leaf key value) =
      (pairItem key true (.data value.val)).encode := rfl
  by_cases same : key = path
  · have equal : (keySlice key true).equals slice = true := by
      rw [NibbleSlice.equals_eq (valid_keySlice _ _) valid]
      simp [viewed, same]
    have kill := runs_killNode sound (.leaf key value)
    rw [if_pos same]
    rw [view] at kill ⊢
    simp only [deleteAt, isEmpty_pair small, nodeCount_pair small,
      keyOf_pair small, andLeaf_pair small, equal, pure_bind,
      Bool.false_eq_true, if_false, if_true, BEq.rfl, Bool.and_self]
    refine Ensures.bind kill.with_run ?_
    rintro _ after ⟨ran, follows, balance⟩
    refine Ensures.pure ⟨rfl, follows, trivial,
      fun _ => lookup_killNode sound ran, ?_⟩
    simpa [refs] using balance
  · have different : (keySlice key true).equals slice = false := by
      rw [NibbleSlice.equals_eq (valid_keySlice _ _) valid]
      simp [viewed, same]
    have outside : slice.contains (keySlice key true) = false := by
      rw [NibbleSlice.contains_eq valid (valid_keySlice _ _)]
      simp only [viewed, toList_keySlice, decide_eq_false_iff_not]
      exact fun inside => same (removable inside)
    rw [if_neg same, view]
    simp only [deleteAt, isEmpty_pair small, nodeCount_pair small,
      keyOf_pair small, andLeaf_pair small, different, outside, pure_bind,
      Bool.false_eq_true, if_false, if_true, BEq.rfl, Bool.and_true]
    rfl

/-! ## Descending -/

theorem isEmpty_enc_text (node : Node) : (enc sha3 node).isEmpty = false := by
  simp [enc]

theorem run_deleteAtAux_none {child : Node} {path : List Nibble}
    {key : NibbleSlice} (stream : RLPStream)
    (sound : Sound sha3 occurring trie)
    (deletes : DeletesTo sha3 occurring fuel trie child path none)
    (short : child.Short) (stored : StoredRef sha3 trie child)
    (valid : key.Valid) (viewed : key.toList = path) :
    (deleteAtAux sha3 (deleteAt sha3 fuel) stream (ref sha3 child).encode
      key).run trie = .ok none trie := by
  unfold deleteAtAux
  by_cases empty : child = .null
  · have unused : RLP.isEmpty (ref sha3 child).encode = true := by
      rw [empty, ref_null]
      rfl
    rw [unused]
    rfl
  · have below : (deleteAt sha3 fuel (enc sha3 child) key).run trie =
        .ok [] trie := deletes key valid viewed
    rw [isEmpty_ref short empty, if_neg Bool.false_ne_true, EStateM.run_bind,
      run_child sound stored short empty]
    simp only [EStateM.run_bind, below]
    rfl

theorem streamNode_null {stream stream' : RLPStream} {after : GenericTrieDB}
    (ran : (streamNode sha3 stream (enc sha3 .null)).run trie =
      .ok stream' after) : after = trie := by
  have inline : (enc sha3 .null).length < 32 := by
    rw [enc_null]
    decide
  rw [streamNode, if_pos inline] at ran
  cases result : stream.appendRaw (enc sha3 .null) 1 with
  | ok written =>
      rw [result] at ran
      injection ran with _ same
      exact same.symm
  | error error =>
      rw [result] at ran
      cases ran

theorem runs_deleteAtAux (injective : Set.InjOn sha3 occurring)
    (sound : Sound sha3 occurring trie) {child child' : Node}
    {path : List Nibble} {key : NibbleSlice}
    (deletes : DeletesTo sha3 occurring fuel trie child path (some child'))
    (nonempty : child ≠ .null) (short : child.Short)
    (stored : StoredRef sha3 trie child)
    (valid : key.Valid) (viewed : key.toList = path)
    {total : Nat} {done : List Item} (missing : done.length < total)
    (small : (encodeAll (done ++ [ref sha3 child'])).length < sizeTRange) :
    Runs occurring
      (deleteAtAux sha3 (deleteAt sha3 fuel) (building total done)
        (ref sha3 child).encode key) trie
      fun stream after =>
        stream = some (building total (done ++ [ref sha3 child'])) ∧
        Follows sha3 occurring trie after ∧ StoredRef sha3 after child' ∧
        (child' = .null → after.db.lookup = trie.db.lookup) ∧
        Balance trie after (own sha3 child + refs sha3 child)
          (own sha3 child' + refs sha3 child') := by
  have below := deletes key valid viewed
  unfold deleteAtAux
  rw [isEmpty_ref short nonempty, if_neg Bool.false_ne_true]
  refine Ensures.bind_of_run (run_child sound stored short nonempty) ?_
  refine Ensures.bind below ?_
  rintro text middle ⟨rfl, follows, stored', same, balance⟩
  simp only [isEmpty_enc_text, Bool.false_eq_true, if_false]
  refine Ensures.bind
    (runs_streamNode injective follows.sound child' missing small).with_run ?_
  rintro stream after ⟨ran, rfl, follows', held, balance'⟩
  refine Ensures.pure ⟨rfl, follows.trans follows',
    ⟨held, stored'.mono follows'.keeps⟩, ?_, ?_⟩
  · intro null
    rw [null] at ran
    rw [streamNode_null ran]
    exact same null
  · have framed := balance'.frame (refs sha3 child')
    rw [zero_add] at framed
    exact balance.trans framed

/-! ## Extensions -/

/-- The way into a pair whose key is on the path, up to the recursive call. -/
theorem deleteAt_ext {key : List Nibble} {child : Node} {slice : NibbleSlice}
    (shortKey : key.length < 2 ^ 32) (valid : slice.Valid) :
    deleteAt sha3 (fuel + 1) (enc sha3 (.ext key child)) slice =
      if key <+: slice.toList then
        deleteAtAux sha3 (deleteAt sha3 fuel)
            (building 2 [.data (hexPrefix key false)]) (ref sha3 child).encode
            (slice.mid key.length) >>=
          finishPair sha3 (enc sha3 (.ext key child))
      else pure [] := by
  have bound := encode_reference_length sha3 (item sha3 child)
  have small : SmallPair key false (ref sha3 child) :=
    small_pair false shortKey (Nat.lt_of_le_of_lt bound (by decide))
  have view : enc sha3 (.ext key child) =
      (pairItem key false (ref sha3 child)).encode := rfl
  have first : (building 2 []).appendRaw
      (Item.data (hexPrefix key false)).encode 1 =
        .ok (building 2 [.data (hexPrefix key false)]) :=
    appendRaw_building (by simp) (small_first small)
  rw [view]
  simp only [deleteAt, isEmpty_pair small, nodeCount_pair small,
    keyOf_pair small, andLeaf_pair small, pure_bind, Bool.false_eq_true,
    if_false, if_true, Bool.and_false, show (false == true) = false from rfl,
    NibbleSlice.contains_eq valid (valid_keySlice _ _), toList_keySlice,
    decide_eq_true_eq, ofCount_building (show 0 < 2 by omega), ofRLP_ok,
    itemAt_pair_first small, first, itemAt_pair_second small,
    NibbleSlice.size_eq]

/-- After the child of an extension was rewritten. -/
theorem runs_finishPair {key : List Nibble} {child child' : Node}
    (sound : Sound sha3 occurring trie)
    (stored : StoredRef sha3 trie child') (shortKey : key.length < 2 ^ 32)
    (short : child'.Short) (nonempty : child' ≠ .null)
    (shortGraft : Short (Trie.graft key child')) :
    Runs occurring
      (finishPair sha3 (enc sha3 (.ext key child))
        (some (building 2 [.data (hexPrefix key false), ref sha3 child'])))
      trie fun text after =>
        text = enc sha3 (Trie.graft key child') ∧
        Follows sha3 occurring trie after ∧
        Stored sha3 after (Trie.graft key child') ∧
        Balance trie after
          (own sha3 (.ext key child) + (own sha3 child' + refs sha3 child'))
          (refs sha3 (Trie.graft key child')) := by
  have bound := encode_reference_length sha3 (item sha3 child')
  have small : SmallPair key false (ref sha3 child') :=
    small_pair false shortKey (Nat.lt_of_le_of_lt bound (by decide))
  have done : (building 2 [.data (hexPrefix key false),
      ref sha3 child']).result = .ok (enc sha3 (.ext key child')) :=
    result_building [Item.data (hexPrefix key false), ref sha3 child']
  have read : itemAt (enc sha3 (.ext key child')) 1 =
      pure (ref sha3 child').encode := itemAt_pair_second small
  have shortAbove : Short (.ext key child') := ⟨shortKey, short⟩
  unfold finishPair
  refine Ensures.bind (runs_killNode sound _) ?_
  rintro _ middle ⟨follows, balance⟩
  have stored' := StoredRef.mono follows.keeps stored
  simp only [done, ofRLP_ok, pure_bind, rlpOf_enc shortAbove, read]
  refine Ensures.bind_of_run
    (run_isTwoItemNode follows.sound stored' short nonempty) ?_
  refine (runs_joined follows.sound stored' shortKey short shortGraft nonempty
    ?_ ?_).mono ?_
  · intro pair
    rw [pair]
    rfl
  · intro several
    rw [if_neg (by simpa using several)]
  · rintro text after ⟨rfl, follows', stored'', balance'⟩
    have framed := balance.frame (own sha3 child' + refs sha3 child')
    rw [zero_add] at framed
    exact ⟨rfl, follows.trans follows', stored'', framed.trans balance'⟩

theorem deletes_ext (injective : Set.InjOn sha3 occurring)
    (sound : Sound sha3 occurring trie) {key path : List Nibble}
    {child : Node} {outcome : Option Node}
    (deletes : key <+: path → DeletesTo sha3 occurring fuel trie child
      (path.drop key.length) outcome)
    (shortKey : key.length < 2 ^ 32) (nonempty : child ≠ .null)
    (short : child.Short) (stored : Stored sha3 trie (.ext key child))
    (shorts : ∀ child', outcome = some child' → child'.Short ∧
      child' ≠ .null ∧ Short (Trie.graft key child')) :
    DeletesTo sha3 occurring (fuel + 1) trie (.ext key child) path
      (if key <+: path then outcome.map (Trie.graft key) else none) := by
  intro slice valid viewed
  rw [deleteAt_ext shortKey valid, viewed]
  by_cases inside : key <+: path
  · have midValid : (slice.mid key.length).Valid :=
      valid.mid (by rw [viewed]; exact inside.length_le)
    have midViewed : (slice.mid key.length).toList = path.drop key.length := by
      simp [viewed]
    rw [if_pos inside, if_pos inside]
    cases outcome with
    | none =>
        have below := run_deleteAtAux_none
          (building 2 [.data (hexPrefix key false)]) sound (deletes inside)
          short stored midValid midViewed
        change EStateM.run _ trie = _
        rw [EStateM.run_bind, below]
        rfl
    | some child' =>
        obtain ⟨short', nonempty', shortGraft⟩ := shorts child' rfl
        have bound := encode_reference_length sha3 (item sha3 child')
        have small : SmallPair key false (ref sha3 child') :=
          small_pair false shortKey (Nat.lt_of_le_of_lt bound (by decide))
        refine Ensures.bind (runs_deleteAtAux injective sound
          (deletes inside) nonempty short stored midValid midViewed
          (show [Item.data (hexPrefix key false)].length < 2 by simp)
          (sizeTRange_of_readLimit small)) ?_
        rintro _ middle ⟨rfl, follows, stored', _, balance⟩
        refine (runs_finishPair follows.sound stored' shortKey short'
          nonempty' shortGraft).mono ?_
        rintro text after ⟨rfl, follows', stored'', balance'⟩
        refine ⟨rfl, follows.trans follows', stored'', ?_, ?_⟩
        · intro null
          cases child' <;> simp [Trie.graft] at null
        · have framed := balance.frame (own sha3 (.ext key child))
          rw [add_comm, add_comm _ (own sha3 (.ext key child))] at framed
          exact framed.trans balance'
  · rw [if_neg inside, if_neg inside]
    rfl

/-! ## Branches -/

section Branches

variable {children : Nibble → Node} {value : Option TrieValue}

/-- Only the child in use has references. -/
theorem refs_single {digit : Nibble}
    (others : ∀ other, other ≠ digit → children other = .null) :
    refs sha3 (.branch children value) =
      own sha3 (children digit) + refs sha3 (children digit) := by
  have none : ∑ other ∈ Finset.univ.erase digit,
      (own sha3 (children other) + refs sha3 (children other)) = 0 := by
    apply Finset.sum_eq_zero
    intro other member
    rw [others other (Finset.ne_of_mem_erase member)]
    rfl
  rw [refs_branch children digit value, none, add_zero]

theorem refs_unused (unused : ∀ digit, children digit = .null) :
    refs sha3 (.branch children value) = 0 := by
  have single : refs sha3 (.branch children value) =
      own sha3 (children 0) + refs sha3 (children 0) :=
    refs_single fun other _ => unused other
  rw [single, unused 0]
  rfl

/-- The end of `finishBranch`. -/
theorem runs_compact (sound : Sound sha3 occurring trie)
    (stored : Stored sha3 trie (.branch children value))
    (shorts : ∀ digit, (children digit).Short)
    (short : Short (collapse children value))
    (used : value ≠ none ∨ ∃ digit, children digit ≠ .null)
    (plain : ∀ held, value = some held →
      (∀ digit, children digit = .null) → Plain trie held) :
    Runs occurring
      (uniqueInUse (enc sha3 (.branch children value)) 255 >>= fun used =>
        if used = 255 then pure (enc sha3 (.branch children value))
        else mergeUnique (enc sha3 (.branch children value)) used) trie
      fun text after =>
        text = enc sha3 (collapse children value) ∧
        Follows sha3 occurring trie after ∧
        Stored sha3 after (collapse children value) ∧
        Balance trie after (refs sha3 (.branch children value))
          (refs sha3 (collapse children value)) := by
  rcases slots_cases children value with
    crowded | ⟨rfl, digit, busy, others⟩ | unused
  · rw [uniqueInUse_crowded shorts crowded, pure_bind, if_pos rfl,
      collapse_crowded crowded]
    exact Ensures.pure ⟨rfl, .refl sound, stored, .refl _⟩
  · have child : ¬ digit.val = 255 := by
      have bound := digit.isLt
      omega
    rw [uniqueInUse_child shorts busy others (.inr ⟨rfl, rfl⟩), pure_bind,
      if_neg child, collapse_child busy others, refs_single others]
    rw [collapse_child busy others] at short
    exact runs_mergeUnique sound (stored digit) (shorts digit) short busy
  · obtain ⟨held, rfl⟩ : ∃ held, value = some held := by
      rcases used with present | ⟨digit, busy⟩
      · exact Option.ne_none_iff_exists'.mp present
      · exact absurd (unused digit) busy
    have read : itemAt (enc sha3 (.branch children (some held))) 16 =
        pure (Item.data held.val).encode :=
      itemAt_branch_value (small_branch_ref sha3 children (some held))
    rw [uniqueInUse_value held unused, pure_bind, if_neg (by decide),
      mergeUnique, read, pure_bind, collapse_value held unused,
      refs_unused unused]
    refine Ensures.bind_of_run (plain held rfl unused) ?_
    rw [if_neg Bool.false_ne_true, merge_value]
    exact Ensures.pure ⟨rfl, .refl sound, trivial, .refl _⟩

/-- After one slot of a branch was rewritten. -/
theorem runs_finishBranch (sound : Sound sha3 occurring trie) (node : Node)
    (stored : Stored sha3 trie (.branch children value))
    (shorts : ∀ digit, (children digit).Short)
    (short : Short (collapse children value))
    (used : value ≠ none ∨ ∃ digit, children digit ≠ .null)
    (plain : ∀ held, value = some held →
      (∀ digit, children digit = .null) → ∀ after : GenericTrieDB,
        after.db.lookup = trie.db.lookup → Plain after held) :
    Runs occurring
      (finishBranch sha3 (enc sha3 node) (some (building 17
        (branchItems (fun digit => ref sha3 (children digit))
          (slotBytes value))))) trie
      fun text after =>
        text = enc sha3 (collapse children value) ∧
        Follows sha3 occurring trie after ∧
        Stored sha3 after (collapse children value) ∧
        Balance trie after
          (own sha3 node + refs sha3 (.branch children value))
          (refs sha3 (collapse children value)) := by
  have done := result_building (branchItems
    (fun digit => ref sha3 (children digit)) (slotBytes value))
  rw [length_branchItems] at done
  have text : (building 17 (branchItems
      (fun digit => ref sha3 (children digit)) (slotBytes value))).result =
        .ok (enc sha3 (.branch children value)) := done
  unfold finishBranch
  refine Ensures.bind (runs_killNode sound node).with_run ?_
  rintro _ middle ⟨ran, follows, balance⟩
  have shortBranch : Short (.branch children value) := shorts
  simp only [text, ofRLP_ok, pure_bind, rlpOf_enc shortBranch]
  refine (runs_compact follows.sound (Stored.mono follows.keeps stored) shorts
    short used ?_).mono ?_
  · intro held present unused
    exact plain held present unused middle (lookup_killNode sound ran)
  · rintro text after ⟨rfl, follows', stored', balance'⟩
    have framed := balance.frame (refs sha3 (.branch children value))
    rw [zero_add] at framed
    exact ⟨rfl, follows.trans follows', stored', framed.trans balance'⟩

theorem valueHere_branch {slice : NibbleSlice} :
    valueHere (enc sha3 (.branch children value)) slice =
      pure (decide (slice.toList = []) && value.isSome) := by
  have read : itemAt (enc sha3 (.branch children value)) 16 =
      pure (Item.data (slotBytes value)).encode :=
    itemAt_branch_value (small_branch_ref sha3 children value)
  have empty : RLP.isEmpty (Item.data (slotBytes value)).encode =
      !value.isSome := by
    have slot : (branchItems (fun _ => ref sha3 .null)
        (slotBytes value))[16]? = some (.data (slotBytes value)) :=
      getElem?_branchItems_value
    rw [← slotInUse_value (fun _ => .null) value]
    exact isEmpty_slot (show ∀ _ : Nibble, Short .null from fun _ => trivial)
      slot
  unfold valueHere
  by_cases here : slice.toList = []
  · rw [if_pos (by simp [here]), read, pure_bind, empty]
    simp [here]
  · rw [if_neg (by simpa using here)]
    simp [here]

theorem deletes_branch_nil (sound : Sound sha3 occurring trie)
    {held : TrieValue} (shorts : ∀ digit, (children digit).Short)
    (short : Short (collapse children none))
    (stored : Stored sha3 trie (.branch children (some held)))
    (busy : ∃ digit, children digit ≠ .null)
    (target : collapse children none ≠ .null) :
    DeletesTo sha3 occurring (fuel + 1) trie (.branch children (some held)) []
      (some (collapse children none)) := by
  intro slice valid viewed
  have small := small_branch_ref sha3 children (some held)
  have view : enc sha3 (.branch children (some held)) =
      (branchItem (fun digit => ref sha3 (children digit))
        (slotBytes (some held))).encode := rfl
  have nonempty : RLP.isEmpty (enc sha3 (.branch children (some held))) =
      false := isEmpty_branch small
  have count : nodeCount (enc sha3 (.branch children (some held))) =
      pure 17 := nodeCount_branch small
  have kill := runs_killNode sound (.branch children (some held))
  change Runs occurring _ trie _
  simp only [deleteAt, nonempty, count, pure_bind, Bool.false_eq_true,
    if_false, show ¬ (17 : Nat) = 2 by omega, valueHere_branch, viewed,
    decide_true, Option.isSome_some, Bool.and_self, if_true]
  refine Ensures.bind kill ?_
  rintro _ middle ⟨follows, balance⟩
  have stored' := Stored.mono follows.keeps stored
  have framed := balance.frame (refs sha3 (.branch children (some held)))
  rw [zero_add] at framed
  rcases slots_cases children none with
    crowded | ⟨_, digit, used, others⟩ | unused
  · rw [uniqueInUse_children shorts crowded, pure_bind, if_neg (by decide),
      collapse_crowded crowded]
    have written := copy_with_value sha3 children (some held) none
    change Runs occurring _ middle _
    rw [show ([] : Bytes) = slotBytes none from rfl, written]
    exact Ensures.pure ⟨rfl, follows, stored', fun empty => absurd empty
      (by simp), framed⟩
  · have child : digit.val ≠ 255 := by
      have bound := digit.isLt
      omega
    rw [collapse_child used others] at short target ⊢
    rw [uniqueInUse_child shorts used others (.inl rfl), pure_bind,
      if_pos child]
    refine (runs_mergeUnique follows.sound (stored' digit) (shorts digit)
      short used).mono ?_
    rintro text after ⟨rfl, follows', stored'', balance'⟩
    rw [refs_single others] at framed
    refine ⟨rfl, follows.trans follows', stored'',
      fun null => absurd null target, ?_⟩
    rw [refs_single others]
    exact framed.trans balance'
  · obtain ⟨digit, used⟩ := busy
    exact absurd (unused digit) used

/-- The way into a branch, up to the loop over its slots. -/
theorem deleteAt_branch {slice : NibbleSlice} {digit : Nibble}
    {path : List Nibble} (viewed : slice.toList = digit :: path) :
    deleteAt sha3 (fuel + 1) (enc sha3 (.branch children value)) slice =
      (List.range 17).foldlM (deleteSlot sha3 (deleteAt sha3 fuel)
          (enc sha3 (.branch children value)) slice digit)
          (some (building 17 [])) >>=
        finishBranch sha3 (enc sha3 (.branch children value)) := by
  have small := small_branch_ref sha3 children value
  have nonempty : RLP.isEmpty (enc sha3 (.branch children value)) = false :=
    isEmpty_branch small
  have count : nodeCount (enc sha3 (.branch children value)) = pure 17 :=
    nodeCount_branch small
  have first : slice.index 0 = some digit := by
    rw [NibbleSlice.index_eq, viewed]
    rfl
  simp only [deleteAt, nonempty, count, pure_bind, Bool.false_eq_true,
    if_false, show ¬ (17 : Nat) = 2 by omega, valueHere_branch, viewed,
    show decide (digit :: path = []) = false by simp, Bool.false_and,
    ofCount_building (show 0 < 17 by omega), ofRLP_ok, first, inRange_some]

theorem deleteSlot_copies {delete : Bytes → NibbleSlice → TrieM Bytes}
    {orig : Bytes} {slice : NibbleSlice} {digit : Nibble}
    (stream : RLPStream) (slot : Nat) (other : slot ≠ digit.val) :
    deleteSlot sha3 delete orig slice digit (some stream) slot =
      (itemAt orig slot >>= fun entry =>
        ofRLP (stream.appendRaw entry 1) >>= fun stream =>
          pure (some stream)) := by
  rw [deleteSlot, if_neg other]

theorem deleteSlot_digit {delete : Bytes → NibbleSlice → TrieM Bytes}
    {slice : NibbleSlice} {digit : Nibble} (stream : RLPStream) :
    deleteSlot sha3 delete (enc sha3 (.branch children value)) slice digit
        (some stream) digit.val =
      deleteAtAux sha3 delete stream (ref sha3 (children digit)).encode
        (slice.mid 1) := by
  have read : itemAt (enc sha3 (.branch children value)) digit.val =
      pure (ref sha3 (children digit)).encode :=
    itemAt_branch (small_branch_ref sha3 children value) digit
  rw [deleteSlot, if_pos rfl, read, pure_bind]

/-- The loop over the slots comes to the recursive call. -/
theorem foldlM_deleteSlot {delete : Bytes → NibbleSlice → TrieM Bytes}
    {slice : NibbleSlice} {digit : Nibble} :
    (List.range 17).foldlM (deleteSlot sha3 delete
        (enc sha3 (.branch children value)) slice digit)
        (some (building 17 [])) =
      deleteAtAux sha3 delete
          (building 17 ((branchItems (fun other => ref sha3 (children other))
            (slotBytes value)).take digit.val))
          (ref sha3 (children digit)).encode (slice.mid 1) >>= fun state =>
        (List.range' (digit.val + 1) (16 - digit.val)).foldlM
          (deleteSlot sha3 delete (enc sha3 (.branch children value)) slice
            digit) state := by
  rw [← deleteSlot_digit]
  exact foldlM_slots_eq some (length_branchItems _ _)
    (small_branch_ref sha3 children value)
    (fun stream slot _ other => deleteSlot_copies stream slot other)

theorem foldlM_deleteSlot_none
    {delete : Bytes → NibbleSlice → TrieM Bytes} {orig : Bytes}
    {key : NibbleSlice} {digit : Nibble} (slots : List Nat) :
    slots.foldlM (deleteSlot sha3 delete orig key digit) none =
      pure none := by
  induction slots with
  | nil => rfl
  | cons slot slots induction =>
      rw [List.foldlM_cons, deleteSlot, pure_bind, induction]

theorem deletes_branch_none (sound : Sound sha3 occurring trie)
    {digit : Nibble} {path : List Nibble}
    (deletes : DeletesTo sha3 occurring fuel trie (children digit) path none)
    (short : (children digit).Short)
    (stored : Stored sha3 trie (.branch children value)) :
    DeletesTo sha3 occurring (fuel + 1) trie (.branch children value)
      (digit :: path) none := by
  intro slice valid viewed
  have midValid : (slice.mid 1).Valid := valid.mid (by simp [viewed])
  have midViewed : (slice.mid 1).toList = path := by simp [viewed]
  have below := run_deleteAtAux_none
    (building 17 ((branchItems (fun other => ref sha3 (children other))
      (slotBytes value)).take digit.val)) sound deletes short (stored digit)
      midValid midViewed
  change EStateM.run _ trie = _
  rw [deleteAt_branch viewed, foldlM_deleteSlot]
  simp only [EStateM.run_bind, below, foldlM_deleteSlot_none]
  rfl

theorem deletes_branch_some (injective : Set.InjOn sha3 occurring)
    (sound : Sound sha3 occurring trie) {digit : Nibble}
    {path : List Nibble} {child' : Node}
    (deletes : DeletesTo sha3 occurring fuel trie (children digit) path
      (some child'))
    (nonempty : children digit ≠ .null)
    (shorts : ∀ digit, (children digit).Short) (short' : child'.Short)
    (shortCollapse : Short
      (collapse (Function.update children digit child') value))
    (stored : Stored sha3 trie (.branch children value))
    (used : value ≠ none ∨
      ∃ other, Function.update children digit child' other ≠ .null)
    (target : collapse (Function.update children digit child') value ≠ .null)
    (plain : ∀ held, value = some held → child' = .null →
      (∀ other, other ≠ digit → children other = .null) →
        ∀ after : GenericTrieDB, after.db.lookup = trie.db.lookup →
          Plain after held) :
    DeletesTo sha3 occurring (fuel + 1) trie (.branch children value)
      (digit :: path)
      (some (collapse (Function.update children digit child') value)) := by
  intro slice valid viewed
  have midValid : (slice.mid 1).Valid := valid.mid (by simp [viewed])
  have midViewed : (slice.mid 1).toList = path := by simp [viewed]
  have small := small_branch_ref sha3 children value
  have small' := small_branch_ref sha3 (Function.update children digit child')
    value
  rw [ref_update, branchItems_update] at small'
  have bound := digit.isLt
  have front : ((branchItems (fun other => ref sha3 (children other))
      (slotBytes value)).take digit.val).length < 17 := by
    rw [List.length_take, length_branchItems]
    omega
  have updated : branchItems
      (fun other => ref sha3 (Function.update children digit child' other))
      (slotBytes value) = _ :=
    (congrArg (branchItems · (slotBytes value))
      (ref_update children digit child')).trans
        (branchItems_update digit (ref sha3 child'))
  change Runs occurring _ trie _
  rw [deleteAt_branch viewed]
  refine Ensures.bind (runs_foldlM_slots some (length_branchItems _ _) small
    small' (fun stream slot _ other => deleteSlot_copies stream slot other)
    (by
      rw [deleteSlot_digit]
      exact runs_deleteAtAux injective sound deletes nonempty (shorts digit)
        (stored digit) midValid midViewed front (by
          rw [List.append_cons] at small'
          exact small_prefix small'))) ?_
  rintro _ middle ⟨rfl, follows, stored', same, balance⟩
  rw [← updated]
  have storedNew : Stored sha3 middle
      (.branch (Function.update children digit child') value) :=
    stored_update (Stored.mono follows.keeps stored) stored'
  refine (runs_finishBranch follows.sound (.branch children value) storedNew
    ?_ shortCollapse used ?_).mono ?_
  · intro other
    by_cases here : other = digit
    · rw [here, Function.update_self]
      exact short'
    · rw [Function.update_of_ne here]
      exact shorts other
  · intro held present unused after lookups
    have null : child' = .null := by simpa using unused digit
    refine plain held present null ?_ after (lookups.trans (same null))
    intro other different
    simpa [different] using unused other
  · rintro text after ⟨rfl, follows', stored'', balance'⟩
    refine ⟨rfl, follows.trans follows', stored'',
      fun empty => absurd empty target, ?_⟩
    have framed := (balance.frame (∑ other ∈ Finset.univ.erase digit,
      (own sha3 (children other) + refs sha3 (children other)))).frame
        (own sha3 (.branch children value))
    rw [← refs_branch children digit value,
      ← refs_branch_update children digit child' value, add_comm,
      add_comm _ (own sha3 (.branch children value))] at framed
    exact framed.trans balance'

end Branches

/-! ## The whole trie -/

/-- Whether a value is taken for a reference depends on what can be looked
up only. -/
theorem Plain.congr {after : GenericTrieDB} {value : TrieValue}
    (plain : Plain trie value)
    (lookups : after.db.lookup = trie.db.lookup) : Plain after value := by
  have size := value.property.2
  have data := RLP.isData_encodeData []
    (show value.val.length < RLP.readLimit by
      rw [RLP.readLimit_eq]
      omega)
  rw [List.append_nil] at data
  have isData : RLP.isData (Item.data value.val).encode = true := data
  unfold Plain isTwoItemNode at plain ⊢
  rw [isData, if_pos rfl] at plain ⊢
  cases result : RLP.toHash 32 (Item.data value.val).encode with
  | error error =>
      rw [result] at plain
      cases plain
  | ok hash =>
      rw [result, ofRLP_ok, pure_bind, EStateM.run_bind] at plain
      rw [ofRLP_ok, pure_bind, EStateM.run_bind]
      have read : ∀ state : GenericTrieDB, (node hash).run state =
          .ok (state.db.lookup hash) state := fun _ => rfl
      simp only [read, lookups] at plain ⊢
      -- what follows is pure
      have pureStep : ∀ {α : Type} (result : Except RLPError α)
          (next : α → TrieM Bool),
          (ofRLP result >>= next).run trie = .ok false trie →
          (∀ value, (next value).run trie = .ok false trie →
            (next value).run after = .ok false after) →
          (ofRLP result >>= next).run after = .ok false after := by
        intro α result next ran rest
        cases result with
        | ok value => exact rest value ran
        | error error => cases ran
      unfold rlpOf at plain ⊢
      refine pureStep _ _ plain fun view ran => ?_
      refine pureStep _ _ ran fun count ran => ?_
      have answer : (count == 2) = false := by injection ran
      rw [answer]
      rfl

theorem short_erase {node erased : Node} {path : List Nibble}
    (canonical : node.Canonical) (bound : ∀ path value,
      node.get path = some value → path.length < 2 ^ 32)
    (result : node.erase path = some erased) : erased.Short := by
  apply short_of_get (canonical.erase result).1
  intro other value found
  rw [get_erase result] at found
  by_cases same : path = other
  · rw [if_pos same] at found
    cases found
  · rw [if_neg same] at found
    exact bound other value found

theorem exists_leaf_of_erase {node : Node} (canonical : node.Canonical)
    {path : List Nibble} (result : node.erase path = some .null) :
    ∃ last, node = .leaf path last := by
  cases node with
  | null => cases result
  | leaf key value =>
      unfold Trie.erase at result
      by_cases same : key = path
      · exact ⟨value, by rw [same]⟩
      · rw [if_neg same] at result
        cases result
  | ext key child =>
      obtain ⟨_, branch, inner⟩ := canonical
      unfold Trie.erase at result
      by_cases inside : key <+: path
      · rw [if_pos inside, Option.map_eq_some_iff] at result
        obtain ⟨child', _, grafted⟩ := result
        cases child' <;> simp [Trie.graft] at grafted
      · rw [if_neg inside] at result
        cases result
  | branch children value =>
      exact absurd rfl ((canonical.erase result).2 trivial)

/-- Removal on a path that the code handles. -/
theorem deletes_erase (injective : Set.InjOn sha3 occurring)
    (sound : Sound sha3 occurring trie) {node : Node}
    (canonical : node.Canonical) (bound : ∀ path value,
      node.get path = some value → path.length < 2 ^ 32)
    (stored : Stored sha3 trie node) {path : List Nibble}
    (removable : Removable (Plain trie) node path) {fuel : Nat}
    (enough : path.length < fuel) :
    DeletesTo sha3 occurring fuel trie node path (node.erase path) := by
  induction node generalizing path fuel with
  | null =>
      obtain ⟨fuel, rfl⟩ : ∃ less, fuel = less + 1 := ⟨fuel - 1, by omega⟩
      intro slice valid viewed
      rfl
  | leaf key value =>
      obtain ⟨fuel, rfl⟩ : ∃ less, fuel = less + 1 := ⟨fuel - 1, by omega⟩
      exact deletes_leaf sound (bound key value (by simp)) removable
  | ext key child induction =>
      obtain ⟨fuel, rfl⟩ : ∃ less, fuel = less + 1 := ⟨fuel - 1, by omega⟩
      have short := short_of_get canonical bound
      have nonempty := canonical.1
      have branch := canonical.2.1
      have inner := canonical.2.2
      have inside : ∀ path value, child.get path = some value →
          path.length < 2 ^ 32 := by
        intro path value found
        have length := bound (key ++ path) value (by simpa using found)
        rw [List.length_append] at length
        omega
      refine deletes_ext injective sound ?_ short.1
        (ne_null_of_isBranch branch) short.2 stored ?_
      · intro within
        have positive := List.length_pos_of_ne_nil nonempty
        have length := within.length_le
        refine induction inner inside stored.2 (removable within) ?_
        rw [List.length_drop]
        omega
      · intro child' result
        refine ⟨short_erase inner inside result,
          (inner.erase result).2 branch, ?_⟩
        have whole : (Trie.ext key child).erase
            (key ++ path.drop key.length) = some (Trie.graft key child') := by
          simp [Trie.erase, result]
        exact short_erase canonical bound whole
  | branch children value induction =>
      obtain ⟨fuel, rfl⟩ : ∃ less, fuel = less + 1 := ⟨fuel - 1, by omega⟩
      have short := short_of_get canonical bound
      have inside : ∀ digit path value,
          (children digit).get path = some value → path.length < 2 ^ 32 := by
        intro digit path value found
        have length := bound (digit :: path) value (by simpa using found)
        rw [List.length_cons] at length
        omega
      cases path with
      | nil =>
          obtain ⟨held, rfl⟩ := Option.ne_none_iff_exists'.mp removable
          have result : (Trie.branch children (some held)).erase [] =
              some (collapse children none) := by simp [Trie.erase]
          rw [result]
          exact deletes_branch_nil sound short
            (short_erase canonical bound result) stored
            canonical.2.exists_child ((canonical.erase result).2 trivial)
      | cons digit path =>
          obtain ⟨below, plain⟩ := removable
          have deletes := induction digit (canonical.1 digit) (inside digit)
            (stored digit).2 below (show path.length < fuel by
              rw [List.length_cons] at enough
              omega)
          unfold Trie.erase
          cases result : (children digit).erase path with
          | none =>
              rw [result] at deletes
              exact deletes_branch_none sound deletes (short digit) stored
          | some child' =>
              rw [result] at deletes
              have whole : (Trie.branch children value).erase
                  (digit :: path) = some (collapse
                    (Function.update children digit child') value) := by
                simp [Trie.erase, result]
              have used : children digit ≠ .null := by
                intro empty
                rw [empty] at result
                cases result
              refine deletes_branch_some injective sound deletes used short
                (short_erase (canonical.1 digit) (inside digit) result)
                (short_erase canonical bound whole) stored
                (canonical.2.update digit child')
                ((canonical.erase whole).2 trivial) ?_
              rintro held present rfl others after lookups
              exact (plain held present others
                (exists_leaf_of_erase (canonical.1 digit) result)).congr lookups

end Aecmio
