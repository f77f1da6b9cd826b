import Aecmio.Trie.Refinement

/-!
# Where removal fails

With keys of several lengths `remove` does not always work: it asserts that
there is a digit left at a branch that has no value, it follows a leaf as if
it were an extension, and it looks up a value that remains alone in a branch
as if it were the hash of a node.
-/

namespace Aecmio

set_option synthInstance.maxSize 1024

open Item TrieM Traced Node Patricia Patricia.Trie

variable {α β : Type} {sha3 : Bytes → H256} {occurring : Set Bytes}
  {fuel : Nat} {trie : GenericTrieDB}

/-- The method throws or fails an assertion. -/
def Fails (method : TrieM α) (trie : GenericTrieDB) : Prop :=
  ∃ error after, error ≠ .outOfFuel ∧ method.run trie = .error error after

theorem Fails.bind {method : TrieM α} (fails : Fails method trie)
    (next : α → TrieM β) : Fails (method >>= next) trie := by
  obtain ⟨error, after, real, ran⟩ := fails
  refine ⟨error, after, real, ?_⟩
  rw [EStateM.run_bind, ran]

theorem Fails.of_run {method : TrieM α} {next : α → TrieM β} {value : α}
    {after : GenericTrieDB} (ran : method.run trie = .ok value after)
    (fails : Fails (next value) after) : Fails (method >>= next) trie := by
  obtain ⟨error, last, real, failed⟩ := fails
  refine ⟨error, last, real, ?_⟩
  rw [EStateM.run_bind, ran]
  exact failed

/-- No value of the trie, read as a hash, is found in the database. -/
def NoAlias (trie : GenericTrieDB) (value : Bytes) : Prop :=
  ∀ hash, RLP.toHash 32 (Item.data value).encode = .ok hash →
    trie.db.lookup hash = []

/-! ## Values taken for references -/

theorem isData_value (value : TrieValue) :
    RLP.isData (Item.data value.val).encode = true := by
  have size := value.property.2
  have data := RLP.isData_encodeData []
    (show value.val.length < RLP.readLimit by
      rw [RLP.readLimit_eq]
      omega)
  rwa [List.append_nil] at data

theorem isList_value (value : TrieValue) :
    RLP.isList (Item.data value.val).encode = false := by
  have size := value.property.2
  have list := RLP.isList_encodeData []
    (show value.val.length < RLP.readLimit by
      rw [RLP.readLimit_eq]
      omega)
  rwa [List.append_nil] at list

theorem isEmpty_value (value : TrieValue) :
    RLP.isEmpty (Item.data value.val).encode = false := by
  have size := value.property.2
  have filled := value.property.1
  have empty := RLP.isEmpty_encodeData []
    (show value.val.length < RLP.readLimit by
      rw [RLP.readLimit_eq]
      omega)
  rw [List.append_nil] at empty
  change RLP.isEmpty (encodeData value.val) = false
  rw [empty]
  simpa using filled

/-- A value that is too long for a hash is not looked up. -/
theorem not_plain_iff {value : TrieValue} (noAlias : NoAlias trie value.val) :
    ¬ Plain trie value ↔
      ∃ error, RLP.toHash 32 (Item.data value.val).encode = .error error := by
  unfold Plain isTwoItemNode
  rw [isData_value, if_pos rfl]
  cases result : RLP.toHash 32 (Item.data value.val).encode with
  | error error =>
      refine ⟨fun _ => ⟨error, rfl⟩, fun _ ran => ?_⟩
      cases ran
  | ok hash =>
      refine ⟨fun wrong => absurd ?_ wrong, ?_⟩
      · have read : (node hash).run trie = .ok [] trie := by
          have text := noAlias hash result
          simp [node, EStateM.run_bind, text]
        rw [ofRLP_ok, pure_bind, EStateM.run_bind, read]
        rfl
      · rintro ⟨error, wrong⟩
        cases wrong

theorem plain_iff_short {value : TrieValue}
    (noAlias : NoAlias trie value.val) :
    Plain trie value ↔ value.val.length ≤ 32 := by
  have size := value.property.2
  have small : value.val.length < RLP.readLimit := by
    rw [RLP.readLimit_eq]
    omega
  rw [← not_iff_not, not_plain_iff noAlias]
  by_cases short : value.val.length ≤ 32
  · have accepted := RLP.toHash_encodeData short small
    constructor
    · rintro ⟨error, rejected⟩
      rw [show (Item.data value.val).encode = encodeData value.val from rfl,
        accepted] at rejected
      cases rejected
    · exact fun long => absurd short long
  · have long : 32 < value.val.length := by omega
    have rejected := RLP.toHash_encodeData_of_long long small
    exact ⟨fun _ => short, fun _ => ⟨_, rejected⟩⟩

theorem fails_isTwoItemNode {value : TrieValue} {error : RLPError}
    (long : RLP.toHash 32 (Item.data value.val).encode = .error error) :
    Fails (isTwoItemNode (Item.data value.val).encode) trie := by
  refine ⟨.rlp error, trie, by simp, ?_⟩
  unfold isTwoItemNode
  rw [isData_value, if_pos rfl, long]
  rfl

/-- Deleting below a value as if it were a node. -/
theorem fails_deleteAtAux_value {value : TrieValue} {stream : RLPStream}
    {key : NibbleSlice} (noAlias : NoAlias trie value.val) :
    Fails (deleteAtAux sha3 (deleteAt sha3 (fuel + 1)) stream
      (Item.data value.val).encode key) trie := by
  unfold deleteAtAux
  rw [isEmpty_value, if_neg Bool.false_ne_true]
  cases result : RLP.toHash 32 (Item.data value.val).encode with
  | error error =>
      refine Fails.bind ⟨.rlp error, trie, by simp, ?_⟩ _
      unfold child
      rw [isList_value, if_neg Bool.false_ne_true, result]
      rfl
  | ok hash =>
      have read : (child (Item.data value.val).encode).run trie =
          .ok [] trie := by
        have text := noAlias hash result
        unfold child
        rw [isList_value, if_neg Bool.false_ne_true, result, ofRLP_ok,
          pure_bind, EStateM.run_bind]
        simp only [node, EStateM.run_bind, EStateM.run_get, EStateM.run_pure,
          text]
        rfl
      refine Fails.of_run read (Fails.bind ⟨.assertion, trie, by simp, ?_⟩ _)
      rfl

/-! ## The failing paths -/

theorem fails_leaf {key path : List Nibble} {value : TrieValue}
    {slice : NibbleSlice} (short : key.length < 2 ^ 32)
    (inside : key <+: path) (different : key ≠ path)
    (noAlias : NoAlias trie value.val) (valid : slice.Valid)
    (viewed : slice.toList = path) :
    Fails (deleteAt sha3 (fuel + 2) (enc sha3 (.leaf key value)) slice)
      trie := by
  have small : SmallPair key true (.data value.val) :=
    small_pair true short (encode_value_length value)
  have view : enc sha3 (.leaf key value) =
      (pairItem key true (.data value.val)).encode := rfl
  have unequal : (keySlice key true).equals slice = false := by
    rw [NibbleSlice.equals_eq (valid_keySlice _ _) valid]
    simp [viewed, different]
  have within : slice.contains (keySlice key true) = true := by
    rw [NibbleSlice.contains_eq valid (valid_keySlice _ _)]
    simpa [viewed] using inside
  have first : (building 2 []).appendRaw
      (Item.data (hexPrefix key true)).encode 1 =
        .ok (building 2 [.data (hexPrefix key true)]) :=
    appendRaw_building (by simp) (small_first small)
  rw [view, deleteAt]
  simp only [isEmpty_pair small, nodeCount_pair small, keyOf_pair small,
    andLeaf_pair small, unequal, within, pure_bind, Bool.false_eq_true,
    if_false, if_true, Bool.false_and,
    ofCount_building (show 0 < 2 by omega), ofRLP_ok, itemAt_pair_first small,
    first, itemAt_pair_second small]
  exact (fails_deleteAtAux_value noAlias).bind _

theorem fails_deleteAtAux {child : Node} {stream : RLPStream}
    {key : NibbleSlice} (sound : Sound sha3 occurring trie)
    (stored : StoredRef sha3 trie child) (short : child.Short)
    (nonempty : child ≠ .null)
    (fails : Fails (deleteAt sha3 fuel (enc sha3 child) key) trie) :
    Fails (deleteAtAux sha3 (deleteAt sha3 fuel) stream
      (ref sha3 child).encode key) trie := by
  unfold deleteAtAux
  rw [isEmpty_ref short nonempty, if_neg Bool.false_ne_true]
  exact Fails.of_run (run_child sound stored short nonempty) (fails.bind _)

theorem fails_branch_nil {children : Nibble → Node} {slice : NibbleSlice}
    (viewed : slice.toList = []) :
    Fails (deleteAt sha3 (fuel + 1) (enc sha3 (.branch children none)) slice)
      trie := by
  have small := small_branch_ref sha3 children none
  have nonempty : RLP.isEmpty (enc sha3 (.branch children none)) = false :=
    isEmpty_branch small
  have count : nodeCount (enc sha3 (.branch children none)) = pure 17 :=
    nodeCount_branch small
  have first : slice.index 0 = none := by
    rw [NibbleSlice.index_eq, viewed]
    rfl
  rw [deleteAt]
  simp only [nonempty, count, pure_bind, Bool.false_eq_true, if_false,
    show ¬ (17 : Nat) = 2 by omega, valueHere_branch, Option.isSome_none,
    Bool.and_false, ofCount_building (show 0 < 17 by omega), ofRLP_ok, first]
  exact Fails.bind ⟨.assertion, trie, by simp, rfl⟩ _

/-- A kill always succeeds. -/
theorem run_killNode (sha3 : Bytes → H256) (text : Bytes)
    (trie : GenericTrieDB) :
    ∃ after, (killNode sha3 text).run trie = .ok () after := by
  unfold killNode
  split
  · exact ⟨_, rfl⟩
  · exact ⟨_, rfl⟩

/-- Rewriting the slot of a leaf that is removed. -/
theorem runs_emptied_slots {children : Nibble → Node}
    {value : Option TrieValue} {digit : Nibble} {path : List Nibble}
    {last : TrieValue} {slice : NibbleSlice} (fuel : Nat)
    (sound : Sound sha3 Set.univ trie)
    (stored : Stored sha3 trie (.branch children value))
    (short : Short (.branch children value))
    (leaf : children digit = .leaf path last)
    (valid : slice.Valid) (viewed : slice.toList = digit :: path) :
    Runs Set.univ ((List.range 17).foldlM (deleteSlot sha3
      (deleteAt sha3 (fuel + 1)) (enc sha3 (.branch children value)) slice
      digit) (some (building 17 []))) trie fun state _ =>
        state = some (building 17 (branchItems
          (fun other => ref sha3
            (Function.update children digit .null other))
          (slotBytes value))) := by
  have midValid : (slice.mid 1).Valid := valid.mid (by simp [viewed])
  have midViewed : (slice.mid 1).toList = path := by simp [viewed]
  have small := small_branch_ref sha3 children value
  have small' := small_branch_ref sha3 (Function.update children digit .null)
    value
  have used : children digit ≠ .null := by simp [leaf]
  have bound := digit.isLt
  have front : ((branchItems (fun other => ref sha3 (children other))
      (slotBytes value)).take digit.val).length < 17 := by
    rw [List.length_take, length_branchItems]
    omega
  have shortKey : path.length < 2 ^ 32 := by
    have below := short digit
    rw [leaf] at below
    exact below
  have contract : DeletesTo sha3 Set.univ (fuel + 1) trie (.leaf path last)
      path (if path = path then some .null else none) :=
    deletes_leaf sound shortKey fun _ => rfl
  have deletes := contract (slice.mid 1) midValid midViewed
  rw [if_pos rfl, ← leaf] at deletes
  rw [ref_update, branchItems_update] at small' ⊢
  have here : Runs Set.univ (deleteSlot sha3 (deleteAt sha3 (fuel + 1))
      (enc sha3 (.branch children value)) slice digit
      (some (building 17 ((branchItems (fun other => ref sha3 (children other))
        (slotBytes value)).take digit.val))) digit.val) trie
      fun state _ => state = some (building 17
        ((branchItems (fun other => ref sha3 (children other))
          (slotBytes value)).take digit.val ++ [ref sha3 .null])) ∧ True := by
    rw [deleteSlot_digit, deleteAtAux, isEmpty_ref (short digit) used,
      if_neg Bool.false_ne_true]
    refine Ensures.bind_of_run
      (run_child sound (stored digit) (short digit) used) ?_
    refine Ensures.bind deletes ?_
    rintro text after ⟨rfl, _⟩
    have inline : (enc sha3 .null).length < 32 := by
      rw [enc_null]
      decide
    have appended := appendRaw_building front (show
        (encodeAll ((branchItems (fun other => ref sha3 (children other))
          (slotBytes value)).take digit.val ++ [ref sha3 .null])).length <
            sizeTRange by
      rw [List.append_cons] at small'
      exact small_prefix small')
    have text : (ref sha3 .null).encode = enc sha3 .null := by
      rw [ref_inline sha3 inline]
      rfl
    rw [text] at appended
    simp only [isEmpty_enc_text, Bool.false_eq_true, if_false, streamNode,
      inline, if_true, appended, ofRLP_ok, pure_bind]
    exact Ensures.pure ⟨rfl, trivial⟩
  refine (runs_foldlM_slots some (length_branchItems _ _) small small'
    (fun stream slot _ other => deleteSlot_copies stream slot other)
    here).mono ?_
  rintro state after ⟨rfl, _⟩
  rfl

/-- A branch that loses its only child and keeps a long value. -/
theorem fails_branch_value {children : Nibble → Node} {held : TrieValue}
    {digit : Nibble} {path : List Nibble} {last : TrieValue}
    {slice : NibbleSlice} {error : RLPError}
    (sound : Sound sha3 Set.univ trie)
    (stored : Stored sha3 trie (.branch children (some held)))
    (short : Short (.branch children (some held)))
    (others : ∀ other, other ≠ digit → children other = .null)
    (leaf : children digit = .leaf path last)
    (long : RLP.toHash 32 (Item.data held.val).encode = .error error)
    (valid : slice.Valid) (viewed : slice.toList = digit :: path) :
    Fails (deleteAt sha3 (fuel + 2) (enc sha3 (.branch children (some held)))
      slice) trie := by
  obtain ⟨_, middle, ran, rfl⟩ := runs_emptied_slots fuel sound
    stored short leaf valid viewed (fun _ _ => trivial)
  obtain ⟨after, killed⟩ := run_killNode sha3
    (enc sha3 (.branch children (some held))) middle
  have unused : ∀ other,
      Function.update children digit .null other = .null := by
    intro other
    by_cases same : other = digit
    · rw [same, Function.update_self]
    · rw [Function.update_of_ne same, others other same]
  have done := result_building (branchItems
    (fun other => ref sha3 (Function.update children digit .null other))
    (slotBytes (some held)))
  rw [length_branchItems] at done
  have text : (building 17 (branchItems
      (fun other => ref sha3 (Function.update children digit .null other))
      (slotBytes (some held)))).result =
        .ok (enc sha3 (.branch (Function.update children digit .null)
          (some held))) := done
  have shortBranch : Short (.branch (Function.update children digit .null)
      (some held)) := by
    intro other
    rw [unused other]
    trivial
  have read : itemAt (enc sha3
      (.branch (Function.update children digit .null) (some held))) 16 =
        pure (Item.data held.val).encode :=
    itemAt_branch_value (small_branch_ref sha3 _ (some held))
  rw [deleteAt_branch viewed]
  refine Fails.of_run ran ?_
  unfold finishBranch
  refine Fails.of_run killed ?_
  simp only [text, ofRLP_ok, pure_bind, rlpOf_enc shortBranch,
    uniqueInUse_value held unused, mergeUnique, read,
    show ¬ (16 : Nat) = 255 by omega, if_false]
  exact (fails_isTwoItemNode long).bind _

/-- Off the paths that the code handles, removal fails. -/
theorem fails_deleteAt (sound : Sound sha3 Set.univ trie) {node : Node}
    (canonical : node.Canonical) (short : node.Short)
    (stored : Stored sha3 trie node)
    (noAlias : ∀ path value, node.get path = some value →
      NoAlias trie value.val) {path : List Nibble}
    (unhandled : ¬ Removable (Plain trie) node path) {fuel : Nat}
    (enough : path.length + 1 ≤ fuel) {slice : NibbleSlice}
    (valid : slice.Valid) (viewed : slice.toList = path) :
    Fails (deleteAt sha3 fuel (enc sha3 node) slice) trie := by
  induction node generalizing path fuel slice with
  | null => exact absurd trivial unhandled
  | leaf key value =>
      have both : key <+: path ∧ key ≠ path := by
        unfold Removable at unhandled
        push Not at unhandled
        exact unhandled
      have longer : path ≠ [] := by
        rintro rfl
        exact both.2 (List.prefix_nil.mp both.1)
      have positive := List.length_pos_of_ne_nil longer
      obtain ⟨fuel, rfl⟩ : ∃ less, fuel = less + 2 := ⟨fuel - 2, by omega⟩
      exact fails_leaf short both.1 both.2 (noAlias key value (by simp)) valid
        viewed
  | ext key child induction =>
      obtain ⟨nonempty, branch, inner⟩ := canonical
      have both : key <+: path ∧
          ¬ Removable (Plain trie) child (path.drop key.length) := by
        unfold Removable at unhandled
        push Not at unhandled
        exact unhandled
      have positive := List.length_pos_of_ne_nil nonempty
      have length := both.1.length_le
      obtain ⟨fuel, rfl⟩ : ∃ less, fuel = less + 1 := ⟨fuel - 1, by omega⟩
      rw [deleteAt_ext short.1 valid, viewed, if_pos both.1]
      refine (fails_deleteAtAux sound stored short.2
        (ne_null_of_isBranch branch) ?_).bind _
      refine induction inner short.2 stored.2 ?_ both.2 ?_
        (valid.mid (by rw [viewed]; exact length)) (by simp [viewed])
      · intro path value found
        exact noAlias (key ++ path) value (by simpa using found)
      · rw [List.length_drop]
        omega
  | branch children value induction =>
      obtain ⟨fuel, rfl⟩ : ∃ less, fuel = less + 1 := ⟨fuel - 1, by omega⟩
      cases path with
      | nil =>
          have absent : value = none := by
            by_contra present
            exact unhandled present
          rw [absent]
          exact fails_branch_nil viewed
      | cons digit path =>
          rw [List.length_cons] at enough
          have below : ∀ path value,
              (children digit).get path = some value →
                NoAlias trie value.val := by
            intro path value found
            exact noAlias (digit :: path) value (by simpa using found)
          by_cases handled : Removable (Plain trie) (children digit) path
          · obtain ⟨held, rfl, others, ⟨last, leaf⟩, wrong⟩ :
                ∃ held, value = some held ∧
                  (∀ other, other ≠ digit → children other = .null) ∧
                  (∃ last, children digit = .leaf path last) ∧
                  ¬ Plain trie held := by
              unfold Removable at unhandled
              push Not at unhandled
              exact unhandled handled
            obtain ⟨error, long⟩ := (not_plain_iff
              (noAlias [] held (by simp))).mp wrong
            obtain ⟨fuel, rfl⟩ : ∃ less, fuel = less + 1 :=
              ⟨fuel - 1, by omega⟩
            exact fails_branch_value sound stored short others leaf long valid
              viewed
          · have used : children digit ≠ .null := by
              intro empty
              rw [empty] at handled
              exact handled trivial
            rw [deleteAt_branch viewed, foldlM_deleteSlot]
            refine ((fails_deleteAtAux sound (stored digit) (short digit) used
              ?_).bind _).bind _
            exact induction digit (canonical.1 digit) (short digit)
              (stored digit).2 below handled (by omega)
              (valid.mid (by simp [viewed])) (by simp [viewed])

/-! ## The conditions in terms of the keys -/

theorem asNibbles_prefix_iff {left right : Bytes} :
    asNibbles left <+: asNibbles right ↔ left <+: right := by
  constructor
  · intro inside
    induction left generalizing right with
    | nil => exact List.nil_prefix
    | cons byte left induction =>
        cases right with
        | nil => simp at inside
        | cons other right =>
            rw [asNibbles_cons, asNibbles_cons, List.cons_prefix_cons,
              List.cons_prefix_cons] at inside
            obtain ⟨high, low, inside⟩ := inside
            have digits : asNibbles [byte] = asNibbles [other] := by
              rw [asNibbles_cons, asNibbles_cons, high, low]
            have same := asNibbles_injective digits
            rw [List.cons_prefix_cons]
            exact ⟨(List.cons.inj same).1, induction inside⟩
  · rintro ⟨rest, rfl⟩
    rw [asNibbles_append]
    exact List.prefix_append _ _

section Keys

variable (map : BytesMap) (key : Bytes)

/-- The key is absent, and two keys part right after it. -/
def EndsAtFork : Prop :=
  key ∉ map ∧ ∃ left ∈ map, ∃ right ∈ map, ∃ one two rest rest',
    one ≠ two ∧ asNibbles left = asNibbles key ++ one :: rest ∧
      asNibbles right = asNibbles key ++ two :: rest'

/-- The key continues one that no key of the map continues. -/
def PassesLeaf : Prop :=
  ∃ before ∈ map, before <+: key ∧ before ≠ key ∧
    ∀ other ∈ map, before <+: other → other = before

/-- The key is the only one that continues another, which has the value. -/
def ExposesValue (value : Bytes) : Prop :=
  key ∈ map ∧ ∃ before, before <+: key ∧ before ≠ key ∧
    map.lookup before = some value ∧
    ∀ other ∈ map, before <+: other → other = before ∨ other = key

end Keys

namespace Agrees

variable {map : BytesMap} {node : Node} {key : Bytes}

theorem isSome_get_iff (agrees : Agrees map node) {path : List Nibble} :
    (node.get path).isSome ↔ ∃ key ∈ map, path = asNibbles key := by
  constructor
  · intro found
    obtain ⟨value, held⟩ := Option.isSome_iff_exists.mp found
    obtain ⟨key, same, entry⟩ := agrees.exists_key held
    exact ⟨key, AList.lookup_isSome.mp (by rw [entry]; rfl), same⟩
  · rintro ⟨key, member, rfl⟩
    rw [Option.isSome_iff_ne_none, ne_eq, agrees.get_eq_none_iff,
      AList.lookup_eq_none]
    exact fun absent => absent member

theorem isSome_get_key (agrees : Agrees map node) (key : Bytes) :
    (node.get (asNibbles key)).isSome ↔ key ∈ map := by
  rw [agrees.isSome_get_iff]
  constructor
  · rintro ⟨other, member, same⟩
    rwa [asNibbles_injective same]
  · exact fun member => ⟨key, member, rfl⟩

theorem stopsInside_iff (agrees : Agrees map node) :
    StopsInside node.get (asNibbles key) ↔ EndsAtFork map key := by
  unfold StopsInside EndsAtFork
  rw [agrees.get_eq_none_iff, AList.lookup_eq_none]
  refine and_congr_right fun _ => ?_
  constructor
  · rintro ⟨one, two, rest, rest', different, first, second⟩
    obtain ⟨left, member, same⟩ := agrees.isSome_get_iff.mp first
    obtain ⟨right, member', same'⟩ := agrees.isSome_get_iff.mp second
    exact ⟨left, member, right, member', one, two, rest, rest', different,
      same.symm, same'.symm⟩
  · rintro ⟨left, member, right, member', one, two, rest, rest', different,
      same, same'⟩
    exact ⟨one, two, rest, rest', different,
      agrees.isSome_get_iff.mpr ⟨left, member, same.symm⟩,
      agrees.isSome_get_iff.mpr ⟨right, member', same'.symm⟩⟩

theorem runsPast_iff (agrees : Agrees map node) :
    RunsPast node.get (asNibbles key) ↔ PassesLeaf map key := by
  constructor
  · rintro ⟨path, inside, different, found, alone⟩
    obtain ⟨before, member, rfl⟩ := agrees.isSome_get_iff.mp found
    refine ⟨before, member, asNibbles_prefix_iff.mp inside,
      fun same => different (by rw [same]), ?_⟩
    intro other present after
    exact asNibbles_injective (alone (asNibbles other)
      ((agrees.isSome_get_key other).mpr present)
      (asNibbles_prefix_iff.mpr after))
  · rintro ⟨before, member, inside, different, alone⟩
    refine ⟨asNibbles before, asNibbles_prefix_iff.mpr inside,
      fun same => different (asNibbles_injective same),
      (agrees.isSome_get_key before).mpr member, ?_⟩
    intro path found after
    obtain ⟨other, present, rfl⟩ := agrees.isSome_get_iff.mp found
    rw [alone other present (asNibbles_prefix_iff.mp after)]

theorem leavesValue_iff (agrees : Agrees map node) (held : TrieValue) :
    LeavesValue node.get (asNibbles key) held ↔
      ExposesValue map key held.val := by
  unfold LeavesValue ExposesValue
  rw [agrees.isSome_get_key]
  refine and_congr_right fun _ => ?_
  constructor
  · rintro ⟨path, inside, different, found, alone⟩
    obtain ⟨before, rfl, entry⟩ := agrees.exists_key found
    refine ⟨before, asNibbles_prefix_iff.mp inside,
      fun same => different (by rw [same]), entry, ?_⟩
    intro other present after
    exact (alone (asNibbles other) ((agrees.isSome_get_key other).mpr present)
      (asNibbles_prefix_iff.mpr after)).imp (fun same =>
        asNibbles_injective same) (fun same => asNibbles_injective same)
  · rintro ⟨before, inside, different, entry, alone⟩
    obtain ⟨value, found, same⟩ :=
      (agrees (asNibbles before) held.val).mpr ⟨before, rfl, entry⟩
    refine ⟨asNibbles before, asNibbles_prefix_iff.mpr inside,
      fun same => different (asNibbles_injective same),
      by rw [found, Subtype.ext same], ?_⟩
    intro path present after
    obtain ⟨other, member, rfl⟩ := agrees.isSome_get_iff.mp present
    exact (alone other member (asNibbles_prefix_iff.mp after)).imp
      (fun same => by rw [same]) (fun same => by rw [same])

end Agrees

/-- The keys that `remove` handles in a given state. -/
def Handled (trie : GenericTrieDB) (map : BytesMap) (key : Bytes) : Prop :=
  ¬ EndsAtFork map key ∧ ¬ PassesLeaf map key ∧
    ∀ value, ExposesValue map key value →
      (isTwoItemNode (Item.data value).encode).run trie = .ok false trie

theorem Holding.removable_iff_handled {map : BytesMap} {node : Node}
    (holding : Holding sha3 occurring trie map node) (key : Bytes) :
    Removable (Plain trie) node (asNibbles key) ↔ Handled trie map key := by
  rw [removable_iff holding.canonical, holding.agrees.stopsInside_iff,
    holding.agrees.runsPast_iff]
  simp only [holding.agrees.leavesValue_iff]
  refine and_congr_right fun _ => and_congr_right fun _ => ?_
  constructor
  · intro plain value exposes
    have exposed := exposes
    obtain ⟨_, before, _, _, entry, _⟩ := exposed
    obtain ⟨held, _, rfl⟩ :=
      (holding.agrees (asNibbles before) value).mpr ⟨before, rfl, entry⟩
    exact plain held exposes
  · exact fun plain held exposes => plain held.val exposes

/-- Where no value is also the hash of a node, its length decides. -/
theorem Holding.handled_iff {map : BytesMap} {node : Node}
    (holding : Holding sha3 occurring trie map node) {key : Bytes}
    (noAlias : ∀ other value, map.lookup other = some value →
      NoAlias trie value) :
    Handled trie map key ↔ ¬ EndsAtFork map key ∧ ¬ PassesLeaf map key ∧
      ∀ value, ExposesValue map key value → value.length ≤ 32 := by
  refine and_congr_right fun _ => and_congr_right fun _ => forall_congr' ?_
  refine fun value => imp_congr_right fun exposes => ?_
  obtain ⟨_, before, _, _, entry, _⟩ := exposes
  obtain ⟨held, _, rfl⟩ :=
    (holding.agrees (asNibbles before) value).mpr ⟨before, rfl, entry⟩
  exact plain_iff_short (noAlias before held.val entry)

/-! ## Removal from a trie with any keys -/

/-- What `remove` should do: it succeeds, the key is gone, every other key is
as before, and the root is that of the smaller map. -/
def Removes (sha3 : Bytes → H256) (trie : GenericTrieDB) (map : BytesMap)
    (key : Bytes) : Prop :=
  ∃ after hash, (remove sha3 key).run trie = .ok () after ∧
    (at_ key).run after = .ok [] after ∧
    (∀ other : TrieKey, other.val ≠ key → ∃ bytes,
      (at_ other.val).run trie = .ok bytes trie ∧
      (at_ other.val).run after = .ok bytes after) ∧
    root.run after = .ok hash after ∧
    hash256 sha3 (map.erase key) = .ok hash

theorem session_append (operations : List Operation) (operation : Operation) :
    session sha3 (operations ++ [operation]) =
      session sha3 operations >>= fun _ => operation.run sha3 := by
  unfold session
  rw [bind_assoc]
  congr 1
  funext _
  rw [List.foldlM_append]
  congr 1
  funext _
  rw [List.foldlM_cons]
  simp

namespace Holding

variable {map : BytesMap} {node : Node}

/-- The object holds the smaller map after the removal. -/
theorem removes (holding : Holding sha3 occurring trie map node)
    {after : GenericTrieDB} {node' : Node} {key : Bytes}
    (ran : (remove sha3 key).run trie = .ok () after)
    (holding' : Holding sha3 occurring after (map.erase key) node') :
    Removes sha3 trie map key := by
  refine ⟨after, after.root, ran, ?_, ?_, holding'.run_root,
    holding'.hash256_eq⟩
  · rw [holding'.run_at, AList.lookup_erase]
    rfl
  · intro other different
    refine ⟨_, holding.run_at other.val, ?_⟩
    rw [holding'.run_at, AList.lookup_erase_ne different]

theorem removes_of_handled (injective : Set.InjOn sha3 occurring)
    (holding : Holding sha3 occurring trie map node) {key : Bytes}
    (allowed : ∀ text ∈ (final (remove sha3 key) trie).history,
      text ∈ occurring)
    (handled : Handled trie map key) : Removes sha3 trie map key := by
  have removed := holding.runs_remove injective key
    ((holding.removable_iff_handled key).mpr handled)
  cases result : node.erase (asNibbles key) with
  | none =>
      rw [result] at removed
      have absent := (holding.agrees.get_eq_none_iff key).mp
        ((erase_eq_none_iff _ _).mp result)
      have same : Holding sha3 occurring trie (map.erase key) node :=
        { holding with
          agrees := holding.agrees.erase_absent absent
          bounded := fun other member =>
            holding.bounded other (AList.mem_erase.mp member).2 }
      exact holding.removes removed same
  | some erased =>
      rw [result] at removed
      obtain ⟨_, after, ran, holding', _⟩ := removed allowed
      exact holding.removes ran holding'

theorem fails_of_not_handled (holding : Holding sha3 occurring trie map node)
    {key : Bytes}
    (noAlias : ∀ other value, map.lookup other = some value →
      NoAlias trie value)
    (unhandled : ¬ Handled trie map key) : Fails (remove sha3 key) trie := by
  have sound : Sound sha3 Set.univ trie :=
    ⟨holding.sound.plain, fun hash text found =>
      ⟨(holding.sound.entries hash text found).1, trivial⟩⟩
  have fails : Fails (deleteAt sha3 (descentFuel key) (enc sha3 node)
      ⟨key, 0⟩) trie := by
    refine fails_deleteAt sound holding.canonical holding.short
      holding.stored ?_ (fun removable => unhandled
        ((holding.removable_iff_handled key).mp removable)) ?_
      (Nat.zero_le _) rfl
    · intro path value found
      obtain ⟨other, _, entry⟩ := holding.agrees.exists_key found
      exact noAlias other value.val entry
    · rw [length_asNibbles, descentFuel]
      omega
  have view : rlpOf (enc sha3 node) = pure (enc sha3 node) :=
    rlpOf_enc holding.short
  unfold remove
  refine Fails.of_run (show (get : TrieM _).run trie = .ok trie trie
    from rfl) ?_
  refine Fails.of_run holding.node_root ?_
  rw [view, pure_bind]
  exact fails.bind _

end Holding

/-- Removal from a trie built by insertions works for the keys that are
handled, and for no others unless a value is also the hash of a node. -/
theorem remove_iff_handled (entries : List (TrieKey × TrieValue))
    (key : TrieKey)
    (injective : Set.InjOn sha3
      (written sha3 (insertions entries ++ [.remove key]))) :
    ∃ trie, (session sha3 (insertions entries)).run {} = .ok () trie ∧
      (Handled trie (contents (insertions entries)) key.val →
        Removes sha3 trie (contents (insertions entries)) key.val) ∧
      ((∀ other value,
          (contents (insertions entries)).lookup other = some value →
            NoAlias trie value) →
        (Removes sha3 trie (contents (insertions entries)) key.val ↔
          ¬ EndsAtFork (contents (insertions entries)) key.val ∧
          ¬ PassesLeaf (contents (insertions entries)) key.val ∧
          ∀ value,
            ExposesValue (contents (insertions entries)) key.val value →
              value.length ≤ 32)) := by
  have split : written sha3 (insertions entries ++ [.remove key]) =
      { text | text ∈ (final (session sha3 (insertions entries) >>=
        fun _ => remove sha3 key.val) {}).history } := by
    unfold written
    rw [session_append]
    rfl
  obtain ⟨_, trie, ran, node, holding⟩ := runs_insertions injective entries (by
    intro text member
    rw [split]
    exact subset_final_bind member)
  have allowed : ∀ text ∈ (final (remove sha3 key.val) trie).history,
      text ∈ written sha3 (insertions entries ++ [.remove key]) := by
    intro text member
    rw [split]
    change text ∈ (final (session sha3 (insertions entries) >>=
      fun _ => remove sha3 key.val) {}).history
    rw [final_bind_of_ok ran]
    exact member
  refine ⟨trie, ran, holding.removes_of_handled injective allowed, ?_⟩
  intro noAlias
  rw [← holding.handled_iff noAlias]
  refine ⟨?_, holding.removes_of_handled injective allowed⟩
  rintro ⟨after, hash, removed, _⟩
  by_contra unhandled
  obtain ⟨error, last, _, failed⟩ :=
    holding.fails_of_not_handled noAlias unhandled
  rw [removed] at failed
  cases failed

theorem remove_iff_handled_sample :
    ∃ trie, (session sampleHash (insertions sampleEntries)).run {} =
        .ok () trie ∧
      (Handled trie (contents (insertions sampleEntries)) [0x12] →
        Removes sampleHash trie (contents (insertions sampleEntries))
          [0x12]) := by
  have injective : Set.InjOn sampleHash (written sampleHash
      (insertions sampleEntries ++ [.remove ⟨[0x12], by decide⟩])) :=
    injOn_written (by decide +kernel)
  obtain ⟨trie, ran, works, _⟩ :=
    remove_iff_handled sampleEntries ⟨[0x12], by decide⟩ injective
  exact ⟨trie, ran, works⟩

/-- The run reached its end. -/
def succeeds (result : EStateM.Result TrieError GenericTrieDB Unit) : Bool :=
  match result with
  | .ok _ _ => true
  | .error _ _ => false

theorem exists_not_removes {operations : List Operation} (key : TrieKey)
    (built : succeeds ((session sha3 operations).run {}) = true)
    (failing : succeeds
      ((session sha3 (operations ++ [.remove key])).run {}) = false) :
    ∃ trie, (session sha3 operations).run {} = .ok () trie ∧
      ¬ Removes sha3 trie (contents operations) key.val := by
  cases ran : (session sha3 operations).run {} with
  | error error trie =>
      rw [ran] at built
      cases built
  | ok _ trie =>
      refine ⟨trie, rfl, ?_⟩
      rintro ⟨after, hash, removed, _⟩
      have whole : (session sha3 (operations ++ [.remove key])).run {} =
          .ok () after := by
        rw [session_append, EStateM.run_bind, ran]
        exact removed
      rw [whole] at failing
      cases failing

theorem forkKey_small : ([0x12] : Bytes).length < 2 ^ 30 := by decide

theorem emptyKey_small : ([] : Bytes).length < 2 ^ 30 := by decide

theorem forkValue_allowed : ([0x61] : Bytes) ≠ [] ∧
    ([0x61] : Bytes).length < 2 ^ 56 := by decide

theorem otherValue_allowed : ([0x62] : Bytes) ≠ [] ∧
    ([0x62] : Bytes).length < 2 ^ 56 := by decide

/-- Two keys of one byte that part at their first nibble. -/
def forkEntries : List (TrieKey × TrieValue) :=
  [(⟨[0x12], forkKey_small⟩, ⟨[0x61], forkValue_allowed⟩),
    (⟨[0x23], by decide⟩, ⟨[0x62], otherValue_allowed⟩)]

/-- A single key. -/
def singleEntry : List (TrieKey × TrieValue) :=
  [(⟨[0x12], forkKey_small⟩, ⟨[0x61], forkValue_allowed⟩)]

/-- A key below one that has a value of 33 bytes. -/
def longEntries : List (TrieKey × TrieValue) :=
  [(⟨[], emptyKey_small⟩, ⟨List.replicate 33 0x61, by decide⟩),
    (⟨[0x12], forkKey_small⟩, ⟨[0x62], otherValue_allowed⟩)]

/-- Removal fails for a present key that leaves a long value alone, for an
absent key that ends at a branch, and for one that continues a leaf. -/
theorem remove_fails_sample :
    (∃ trie, (session sampleHash (insertions longEntries)).run {} =
        .ok () trie ∧
      ¬ Removes sampleHash trie (contents (insertions longEntries))
        [0x12]) ∧
    (∃ trie, (session sampleHash (insertions forkEntries)).run {} =
        .ok () trie ∧
      ¬ Removes sampleHash trie (contents (insertions forkEntries)) []) ∧
    ∃ trie, (session sampleHash (insertions singleEntry)).run {} =
        .ok () trie ∧
      ¬ Removes sampleHash trie (contents (insertions singleEntry))
        [0x12, 0x34] :=
  ⟨exists_not_removes ⟨[0x12], by decide⟩ (by decide +kernel)
      (by decide +kernel),
    exists_not_removes ⟨[], by decide⟩ (by decide +kernel)
      (by decide +kernel),
    exists_not_removes ⟨[0x12, 0x34], by decide⟩ (by decide +kernel)
      (by decide +kernel)⟩

end Aecmio
