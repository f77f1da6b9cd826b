import Aecmio.Patricia.Ordered
import Aecmio.Trie.Iterator
import Aecmio.Trie.Refinement

/-!
# Iterators go through a trie in order

The trail of an iterator that stands at a value is that of a cursor.  The
loop is followed over a whole node at once: from entering it, with a key to
look for, it comes to the first cursor of the node from that key on, or to
what follows the nodes above.
-/

namespace Aecmio

open Item TrieM Traced Node Patricia Patricia.Trie

/-! ## Trails of cursors -/

section Trails

variable (sha3 : Bytes → H256)

/-- A node on the trail that is entered. -/
def enteringNode (node : Node) (path : List Nibble) : IteratorNode :=
  ⟨enc sha3 node, hexPrefix path false, 255⟩

/-- A branch on the trail, at a child. -/
def turnNode (turn : Turn 16 TrieValue) : IteratorNode :=
  ⟨enc sha3 (.branch turn.children turn.value), hexPrefix turn.path false,
    UInt8.ofNat turn.digit.val⟩

def turnsTrail (turns : List (Turn 16 TrieValue)) : List IteratorNode :=
  turns.map (turnNode sha3)

/-- The position at which the value of a node is. -/
def valuePosition : Node → UInt8
  | .branch _ _ => 16
  | _ => 0

def cursorIterator (cursor : Cursor 16 TrieValue) : TrieIterator :=
  ⟨⟨enc sha3 cursor.node, hexPrefix cursor.path false,
    valuePosition cursor.node⟩ :: turnsTrail sha3 cursor.turns⟩

/-- An iterator at the first of some cursors, or at the end. -/
def firstIterator (cursors : List (Cursor 16 TrieValue)) : TrieIterator :=
  (cursors.head?.map (cursorIterator sha3)).getD {}

end Trails

variable {sha3 : Bytes → H256} {occurring : Set Bytes} {trie : GenericTrieDB}

theorem firstIterator_cons (cursor : Cursor 16 TrieValue)
    (cursors : List (Cursor 16 TrieValue)) :
    firstIterator sha3 (cursor :: cursors) = cursorIterator sha3 cursor := rfl

/-! ## What the loop comes to -/

/-- The loop comes to an iterator, given enough rounds. -/
def Reaches (trie : GenericTrieDB) (trail : List IteratorNode)
    (key : SearchKey) (iterator : TrieIterator) : Prop :=
  ∃ enough, ∀ fuel, enough ≤ fuel →
    (nextLoop fuel trail key).run trie = .ok iterator trie

/-- The loop comes to an iterator from the end of a round. -/
def Progress.Reaches (trie : GenericTrieDB) (iterator : TrieIterator) :
    Progress → Prop
  | .exits reached => reached = iterator
  | .continues trail key => Aecmio.Reaches trie trail key iterator

theorem reaches_nil (key : SearchKey) : Reaches trie [] key {} := by
  refine ⟨1, ?_⟩
  intro fuel enough
  obtain ⟨fuel, rfl⟩ := Nat.exists_eq_add_of_le' enough
  rfl

/-- One round of the loop. -/
theorem Reaches.of_round {back : IteratorNode} {rest : List IteratorNode}
    {key : SearchKey} {rlp : Bytes} {progress : Progress}
    {iterator : TrieIterator} (read : rlpOf back.rlp = pure rlp)
    (round : (nextRound rlp back rest key).run trie = .ok progress trie)
    (reaches : progress.Reaches trie iterator) :
    Reaches trie (back :: rest) key iterator := by
  have step : ∀ fuel, (nextLoop (fuel + 1) (back :: rest) key).run trie =
      (match progress with
        | .exits iterator => pure iterator
        | .continues trail key => nextLoop fuel trail key : TrieM _).run
          trie := by
    intro fuel
    rw [nextLoop, read, pure_bind, EStateM.run_bind, round] <;>
      cases progress <;> rfl
  cases progress with
  | exits reached =>
      refine ⟨1, ?_⟩
      intro fuel enough
      obtain ⟨fuel, rfl⟩ := Nat.exists_eq_add_of_le' enough
      rw [step]
      exact congrArg (fun iterator => EStateM.Result.ok iterator trie) reaches
  | continues trail key =>
      obtain ⟨enough, reached⟩ := reaches
      refine ⟨enough + 1, ?_⟩
      intro fuel more
      obtain ⟨fuel, rfl⟩ := Nat.exists_eq_add_of_le'
        (Nat.le_trans (Nat.le_add_left 1 enough) more)
      rw [step]
      exact reached fuel (Nat.le_of_succ_le_succ more)

/-! ## Keys that are looked for -/

namespace SearchKey

variable {key : SearchKey}

/-- The nibbles that are looked for. -/
def content (key : SearchKey) : List Nibble :=
  (key.map NibbleSlice.toList).getD []

def Valid (key : SearchKey) : Prop :=
  ∀ slice, key = some slice → slice.Valid

theorem content_clear : key.clear.content = [] := by
  cases key <;> rfl

theorem valid_clear : key.clear.Valid := by
  intro slice same
  cases key with
  | none => cases same
  | some old =>
      cases same
      exact NibbleSlice.valid_cleared

theorem empty_eq : key.empty = key.content.isEmpty := by
  cases key with
  | none => rfl
  | some slice => exact NibbleSlice.empty_eq

/-- A pair is entered with the rest of the key, or with nothing more to look
for, or it is skipped. -/
theorem enterPair_cases (valid : key.Valid) {here : NibbleSlice}
    (validHere : here.Valid) :
    (here.toList <+: key.content ∧ ∃ below, key.enterPair here = some below ∧
      below.Valid ∧ below.content = key.content.drop here.toList.length) ∨
    (¬ here.toList <+: key.content ∧ key.content < here.toList ∧
      ∃ below, key.enterPair here = some below ∧ below.Valid ∧
        below.content = []) ∨
    (¬ here.toList <+: key.content ∧ ¬ key.content < here.toList ∧
      key.enterPair here = none) := by
  cases key with
  | none =>
      have none_valid : SearchKey.Valid none := by
        intro slice same
        cases same
      cases digits : here.toList with
      | nil => exact .inl ⟨List.nil_prefix, none, rfl, none_valid, rfl⟩
      | cons digit rest =>
          apply Or.inr
          apply Or.inl
          refine ⟨?_, List.nil_lt_cons digit rest, none, rfl, none_valid, rfl⟩
          intro inside
          cases List.prefix_nil.mp inside
  | some slice =>
      have validSlice := valid slice rfl
      have contained := NibbleSlice.contains_eq validSlice validHere
      have earlier := @NibbleSlice.isEarlierThan_eq slice here
      by_cases inside : here.toList <+: slice.toList
      · refine .inl ⟨inside,
          some (slice.mid (min slice.size here.size)), ?_, ?_, ?_⟩
        · rw [enterPair, contained, decide_eq_true inside, if_pos rfl]
        · intro other same
          cases same
          exact validSlice.mid (by rw [NibbleSlice.size_eq]; omega)
        · have fits := inside.length_le
          show (slice.mid _).toList = slice.toList.drop _
          rw [NibbleSlice.toList_mid, NibbleSlice.size_eq, NibbleSlice.size_eq,
            Nat.min_eq_right fits]
      · by_cases before : slice.toList < here.toList
        · refine .inr (.inl ⟨inside, before, some (NibbleSlice.cleared.mid
            (min NibbleSlice.cleared.size here.size)), ?_, ?_, ?_⟩)
          · rw [enterPair, contained, decide_eq_false inside,
              if_neg Bool.false_ne_true, earlier, decide_eq_true before,
              if_pos rfl]
          · intro other same
            cases same
            exact NibbleSlice.valid_cleared.mid (Nat.min_le_left _ _)
          · show (NibbleSlice.cleared.mid _).toList = []
            rw [NibbleSlice.toList_mid, NibbleSlice.toList_cleared,
              List.drop_nil]
        · refine .inr (.inr ⟨inside, before, ?_⟩)
          rw [enterPair, contained, decide_eq_false inside,
            if_neg Bool.false_ne_true, earlier, decide_eq_false before,
            if_neg Bool.false_ne_true]

/-- A branch is begun at the value if nothing is looked for. -/
theorem firstChild_nil (valid : key.Valid) (nothing : key.content = []) :
    ∃ below : SearchKey, key.firstChild = pure (16, below) ∧ below.Valid ∧
      below.content = [] := by
  cases key with
  | none => exact ⟨none, rfl, valid, rfl⟩
  | some slice =>
      have nothing : slice.toList = [] := nothing
      refine ⟨some slice, ?_, valid, nothing⟩
      rw [firstChild, NibbleSlice.size_eq, nothing]
      rfl

theorem firstChild_cons (valid : key.Valid) {digit : Nibble}
    {target : List Nibble} (split : key.content = digit :: target) :
    ∃ below : SearchKey,
      key.firstChild = pure (UInt8.ofNat digit.val, below) ∧ below.Valid ∧
        below.content = target := by
  cases key with
  | none => cases split
  | some slice =>
      have split : slice.toList = digit :: target := split
      have first : slice.index 0 = some digit := by
        rw [NibbleSlice.index_eq, split]
        rfl
      refine ⟨some (slice.mid 1), ?_, ?_, ?_⟩
      · rw [firstChild, NibbleSlice.size_eq, split, if_pos (by simp), first]
        rfl
      · intro other same
        cases same
        exact (valid slice rfl).mid (by simp [split])
      · show (slice.mid 1).toList = target
        rw [NibbleSlice.toList_mid, split]
        rfl

end SearchKey

/-! ## Rounds -/

theorem extendKey_eq {rlp : Bytes} {path : List Nibble} {child : UInt8}
    {slice : NibbleSlice} (valid : slice.Valid) :
    IteratorNode.extendKey ⟨rlp, hexPrefix path false, child⟩ slice =
      ⟨rlp, hexPrefix (path ++ slice.toList) false, child⟩ := by
  obtain ⟨same, validPath⟩ := keyOfHexPrefix_hexPrefix path false
  rw [IteratorNode.extendKey,
    NibbleSlice.hexPrefixEncodeWith_eq false validPath valid, same]

/-- What the low nibble of a position stands for. -/
theorem digit_position (digit : Nibble) :
    UInt8.ofNat digit.val ≠ 17 ∧ UInt8.ofNat digit.val ≠ 16 ∧
      UInt8.ofNat digit.val ≠ 255 ∧ (UInt8.ofNat digit.val).toNat = digit.val ∧
      lowNibble (UInt8.ofNat digit.val) = digit := by
  revert digit
  decide

theorem run_deref {node : Node} (sound : Sound sha3 occurring trie)
    (stored : StoredRef sha3 trie node) (short : node.Short)
    (nonempty : node ≠ .null) :
    (deref (ref sha3 node).encode).run trie = .ok (enc sha3 node) trie := by
  unfold deref
  by_cases inline : (enc sha3 node).length < 32
  · have list : RLP.isList (item sha3 node).encode = true :=
      isList_enc short nonempty
    rw [ref_inline sha3 inline, list, if_pos rfl]
    rfl
  · obtain ⟨list, _, _, hash⟩ := read_hash (sha3 (enc sha3 node))
    rw [ref_hashed sha3 inline, list, if_neg Bool.false_ne_true, hash,
      ofRLP_ok, pure_bind]
    exact node_of_holds sound (stored.1 inline)

theorem nextRound_entering {rlp : Bytes} {back : IteratorNode}
    {rest : List IteratorNode} {key : SearchKey}
    (entering : back.child = 255) :
    nextRound rlp back rest key = enterNode rlp back rest key :=
  if_pos entering

section Pairs

variable {digits : List Nibble} {leaf : Bool} {second : Item}
  {back : IteratorNode} {rest : List IteratorNode} {key : SearchKey}

theorem enterNode_pair (small : SmallPair digits leaf second) :
    enterNode (pairItem digits leaf second).encode back rest key =
      enterTwoItem (pairItem digits leaf second).encode back rest key := by
  rw [enterNode, isEmpty_pair small, if_neg Bool.false_ne_true,
    itemCount_pair small, pure_bind, isList_pair small]
  rfl

theorem continueNode_pair (small : SmallPair digits leaf second) :
    continueNode (pairItem digits leaf second).encode back rest key =
      pure (.continues rest key.clear) := by
  rw [continueNode, itemCount_pair small, pure_bind, isList_pair small]
  rfl

theorem enterTwoItem_none (small : SmallPair digits leaf second)
    (skipped : key.enterPair (keySlice digits leaf) = none) :
    enterTwoItem (pairItem digits leaf second).encode back rest key =
      pure (.continues rest key.clear) := by
  rw [enterTwoItem, keyOf_pair small, pure_bind, skipped]

theorem enterTwoItem_leaf (small : SmallPair digits true second)
    {below : SearchKey}
    (entered : key.enterPair (keySlice digits true) = some below) :
    enterTwoItem (pairItem digits true second).encode back rest key =
      if below.empty then pure (.exits
        ⟨(back.extendKey (keySlice digits true)).setChild 0 :: rest⟩)
      else pure (.continues rest below.clear) := by
  rw [enterTwoItem, keyOf_pair small, pure_bind, entered]
  simp only [isLeaf_pair small, pure_bind]
  rfl

theorem enterTwoItem_ext (small : SmallPair digits false second)
    {below : SearchKey}
    (entered : key.enterPair (keySlice digits false) = some below) :
    enterTwoItem (pairItem digits false second).encode back rest key = (do
      let child ← deref second.encode
      return .continues ({ back.extendKey (keySlice digits false) with
        rlp := child } :: rest) below) := by
  rw [enterTwoItem, keyOf_pair small, pure_bind, entered]
  simp only [isLeaf_pair small, pure_bind, itemAt_pair_second small]
  rfl

end Pairs

section Branches

variable {children : Nibble → Item} {value : Bytes} {back : IteratorNode}
  {rest : List IteratorNode} {key : SearchKey}

theorem enterNode_branch (small : SmallBranch children value) :
    enterNode (branchItem children value).encode back rest key = (do
      let (child, key) ← key.firstChild
      searchChildren (branchItem children value).encode rest branchPositions
        (back.setChild child) key) := by
  rw [enterNode, isEmpty_branch small, if_neg Bool.false_ne_true,
    itemCount_branch small, pure_bind, isList_branch small]
  rfl

theorem continueNode_branch (small : SmallBranch children value) :
    continueNode (branchItem children value).encode back rest key =
      searchChildren (branchItem children value).encode rest branchPositions
        back.incrementChild key := by
  rw [continueNode, itemCount_branch small, pure_bind, isList_branch small]
  rfl

/-- The search at a child. -/
theorem searchChildren_digit {rlp : Bytes} {rounds : Nat} {digit : Nibble}
    (here : back.child = UInt8.ofNat digit.val) :
    searchChildren rlp rest (rounds + 1) back key = (do
      let entry ← itemAt rlp digit.val
      if !RLP.isEmpty entry then
        let below : IteratorNode := ⟨← deref entry, back.key, 255⟩
        return .continues
          (below.extendKey ⟨[back.child], 1⟩ :: back :: rest) key
      else searchChildren rlp rest rounds back.incrementChild key.clear) := by
  obtain ⟨notLast, notValue, -, position, -⟩ := digit_position digit
  rw [← here] at notLast notValue position
  rw [searchChildren, if_neg notLast, position]
  simp only [if_neg notValue]

/-- The search at the value. -/
theorem searchChildren_value {rlp : Bytes} {rounds : Nat}
    (here : back.child = 16) :
    searchChildren rlp rest (rounds + 1) back key = (do
      let entry ← itemAt rlp 16
      if !RLP.isEmpty entry then return .exits ⟨back :: rest⟩
      else searchChildren rlp rest rounds back.incrementChild key.clear) := by
  have notLast : back.child ≠ 17 := by
    rw [here]
    decide
  have position : back.child.toNat = 16 := by
    rw [here]
    rfl
  rw [searchChildren, if_neg notLast, position]
  simp only [if_pos here]

end Branches

/-! ## Going over a branch -/

/-- A branch that is on the trail at a position. -/
def branchNode (sha3 : Bytes → H256) (children : Nibble → Node)
    (value : Option TrieValue) (path : List Nibble) (position : UInt8) :
    IteratorNode :=
  ⟨enc sha3 (.branch children value), hexPrefix path false, position⟩

/-- The position of a child, or the one behind all children. -/
def childPosition (start : Nat) : UInt8 :=
  if start < 16 then UInt8.ofNat start else 17

/-- The loop comes from any round with nothing to look for to what follows
the branches. -/
def Resumes (sha3 : Bytes → H256) (trie : GenericTrieDB)
    (turns : List (Turn 16 TrieValue)) : Prop :=
  ∀ key : SearchKey, key.Valid → key.content = [] →
    Reaches trie (turnsTrail sha3 turns) key
      (firstIterator sha3 (resume turns))

/-- The loop comes from entering a node to the first cursor from the key on,
or to what follows. -/
def Enters (sha3 : Bytes → H256) (trie : GenericTrieDB) (node : Node)
    (path : List Nibble) (turns : List (Turn 16 TrieValue)) : Prop :=
  ∀ key : SearchKey, key.Valid →
    Reaches trie (enteringNode sha3 node path :: turnsTrail sha3 turns) key
      (firstIterator sha3
        (node.cursorsFrom key.content path turns ++ resume turns))

section Branch

variable {children : Nibble → Node} {value : Option TrieValue}
  {path : List Nibble} {turns : List (Turn 16 TrieValue)}

/-- The search among the children from one on comes to the first cursor
below them, or to what follows. -/
def SearchReaches (sha3 : Bytes → H256) (trie : GenericTrieDB)
    (children : Nibble → Node) (value : Option TrieValue)
    (path : List Nibble) (turns : List (Turn 16 TrieValue))
    (start : Nat) : Prop :=
  ∀ rounds, 16 < rounds + start → ∀ key : SearchKey, key.Valid →
    key.content = [] → ∃ progress : Progress,
      (searchChildren (enc sha3 (.branch children value))
        (turnsTrail sha3 turns) rounds
        (branchNode sha3 children value path (childPosition start)) key).run
          trie = .ok progress trie ∧
      progress.Reaches trie (firstIterator sha3
        (childCursors children value path turns start ++ resume turns))

theorem searchReaches_end (resumes : Resumes sha3 trie turns) :
    SearchReaches sha3 trie children value path turns 16 := by
  intro rounds enough key valid nothing
  obtain ⟨rounds, rfl⟩ := Nat.exists_eq_add_of_le'
    (show 1 ≤ rounds by omega)
  refine ⟨.continues (turnsTrail sha3 turns) key.clear, rfl, ?_⟩
  rw [childCursors_end, List.nil_append]
  exact resumes _ SearchKey.valid_clear SearchKey.content_clear

theorem incrementChild_digit (digit : Nibble) :
    (branchNode sha3 children value path
      (UInt8.ofNat digit.val)).incrementChild =
        branchNode sha3 children value path (childPosition (digit.val + 1)) := by
  have positions : ∀ digit : Nibble, (if UInt8.ofNat digit.val = 16 then 0
      else if UInt8.ofNat digit.val = 15 then 17
      else UInt8.ofNat digit.val + 1) = childPosition (digit.val + 1) := by
    decide
  rw [branchNode, IteratorNode.incrementChild]
  simp only
  rw [positions]
  rfl

/-- The trail goes on behind a child when all below the child is passed. -/
theorem resumes_turn {digit : Nibble}
    (short : Node.Short (.branch children value))
    (behind : SearchReaches sha3 trie children value path turns
      (digit.val + 1)) :
    Resumes sha3 trie (⟨children, value, path, digit⟩ :: turns) := by
  intro key valid nothing
  obtain ⟨progress, ran, reaches⟩ := behind branchPositions
    (by rw [branchPositions]; omega) key valid nothing
  have small := small_branch_ref sha3 children value
  have notEntering := (digit_position digit).2.2.1
  refine Reaches.of_round (rlpOf_enc short) ?_ reaches
  rw [nextRound, turnNode, if_neg notEntering]
  have continues := @continueNode_branch _ _
    (branchNode sha3 children value path (UInt8.ofNat digit.val))
    (turnsTrail sha3 turns) key small
  rw [incrementChild_digit] at continues
  exact (congrArg (fun program => EStateM.run program trie) continues).trans
    ran

/-- A child is entered, or passed if it is not there. -/
theorem search_child {digit : Nibble} (sound : Sound sha3 occurring trie)
    (short : Node.Short (.branch children value))
    (stored : Stored sha3 trie (.branch children value))
    (enters : Enters sha3 trie (children digit) (path ++ [digit])
      (⟨children, value, path, digit⟩ :: turns))
    (behind : SearchReaches sha3 trie children value path turns
      (digit.val + 1))
    {rounds : Nat} (enough : 16 < rounds + (digit.val + 1)) {key : SearchKey}
    (valid : key.Valid) :
    ∃ progress : Progress,
      (searchChildren (enc sha3 (.branch children value))
        (turnsTrail sha3 turns) (rounds + 1)
        (branchNode sha3 children value path (UInt8.ofNat digit.val)) key).run
          trie = .ok progress trie ∧
      progress.Reaches trie (firstIterator sha3
        ((children digit).cursorsFrom key.content (path ++ [digit])
          (⟨children, value, path, digit⟩ :: turns) ++
        (childCursors children value path turns (digit.val + 1) ++
          resume turns))) := by
  have small := small_branch_ref sha3 children value
  have entry : itemAt (enc sha3 (.branch children value)) digit.val =
      pure (ref sha3 (children digit)).encode := itemAt_branch small digit
  have here : (branchNode sha3 children value path
      (UInt8.ofNat digit.val)).child = UInt8.ofNat digit.val := rfl
  rw [searchChildren_digit here, entry, pure_bind]
  by_cases absent : children digit = .null
  · obtain ⟨progress, ran, reaches⟩ := behind rounds enough key.clear
      SearchKey.valid_clear SearchKey.content_clear
    have unused : RLP.isEmpty (ref sha3 (children digit)).encode = true := by
      rw [absent, ref_null]
      rfl
    refine ⟨progress, ?_, ?_⟩
    · rw [unused, if_neg (by decide), incrementChild_digit]
      exact ran
    · rw [absent]
      exact reaches
  · have used : RLP.isEmpty (ref sha3 (children digit)).encode = false :=
      isEmpty_ref (short digit) absent
    have low : NibbleSlice.toList ⟨[UInt8.ofNat digit.val], 1⟩ = [digit] :=
      congrArg (fun digit => [digit]) (digit_position digit).2.2.2.2
    have valid' : NibbleSlice.Valid ⟨[UInt8.ofNat digit.val], 1⟩ :=
      Nat.le_succ 1
    have extended := @extendKey_eq (enc sha3 (children digit)) path 255 _ valid'
    rw [low] at extended
    have resumes := resumes_turn short behind
    refine ⟨.continues (enteringNode sha3 (children digit) (path ++ [digit]) ::
      turnsTrail sha3 (⟨children, value, path, digit⟩ :: turns)) key, ?_, ?_⟩
    · rw [used, if_pos (by decide), EStateM.run_bind,
        run_deref sound (stored digit) (short digit) absent]
      simp only [branchNode, extended]
      rfl
    · exact enters key valid

/-- The search among all children from one on. -/
theorem searchReaches (sound : Sound sha3 occurring trie)
    (short : Node.Short (.branch children value))
    (stored : Stored sha3 trie (.branch children value))
    (resumes : Resumes sha3 trie turns)
    (enters : ∀ digit, Resumes sha3 trie
        (⟨children, value, path, digit⟩ :: turns) →
      Enters sha3 trie (children digit) (path ++ [digit])
        (⟨children, value, path, digit⟩ :: turns))
    {start : Nat} (inside : start ≤ 16) :
    SearchReaches sha3 trie children value path turns start := by
  induction inside using Nat.decreasingInduction with
  | self => exact searchReaches_end resumes
  | of_succ start less behind =>
      intro rounds enough key valid nothing
      obtain ⟨rounds, rfl⟩ := Nat.exists_eq_add_of_le'
        (show 1 ≤ rounds by omega)
      have behind : SearchReaches sha3 trie children value path turns
        ((⟨start, less⟩ : Nibble).val + 1) := behind
      obtain ⟨progress, ran, reaches⟩ := search_child sound short stored
        (enters ⟨start, less⟩ (resumes_turn short behind)) behind
        (show 16 < rounds + (start + 1) by omega) valid
      refine ⟨progress, ?_, ?_⟩
      · rw [childPosition, if_pos less]
        exact ran
      · have split := @childCursors_cons _ _ children value path turns
          ⟨start, less⟩
        rw [nothing, cursorsFrom_nil] at reaches
        rw [split, List.append_assoc]
        exact reaches

end Branch

/-! ## Entering a node -/

section Entering

variable {path : List Nibble} {turns : List (Turn 16 TrieValue)}

theorem enters_null (resumes : Resumes sha3 trie turns) :
    Enters sha3 trie .null path turns := by
  intro key valid
  have read : rlpOf (enc sha3 .null) = pure (enc sha3 .null) :=
    @rlpOf_enc sha3 .null trivial
  refine @Reaches.of_round trie _ _ _ _ (.continues _ key.clear) _ read rfl ?_
  exact resumes _ SearchKey.valid_clear SearchKey.content_clear

theorem enters_leaf {digits : List Nibble} {value : TrieValue}
    (short : digits.length < 2 ^ 32) (resumes : Resumes sha3 trie turns) :
    Enters sha3 trie (.leaf digits value) path turns := by
  intro key valid
  have small : SmallPair digits true (.data value.val) :=
    small_pair true short (encode_value_length value)
  have read : rlpOf (enc sha3 (.leaf digits value)) =
      pure (enc sha3 (.leaf digits value)) :=
    @rlpOf_enc sha3 (.leaf digits value) short
  have skips : ∀ key : SearchKey, Reaches trie (turnsTrail sha3 turns)
      key.clear (firstIterator sha3 (resume turns)) := fun key =>
    resumes _ SearchKey.valid_clear SearchKey.content_clear
  have validKey := valid_keySlice digits true
  have extended := @extendKey_eq (enc sha3 (.leaf digits value)) path 255 _
    validKey
  have round : nextRound (enc sha3 (.leaf digits value))
      (enteringNode sha3 (.leaf digits value) path) (turnsTrail sha3 turns)
      key = enterTwoItem (pairItem digits true (.data value.val)).encode
        (enteringNode sha3 (.leaf digits value) path)
        (turnsTrail sha3 turns) key :=
    (nextRound_entering rfl).trans (enterNode_pair small)
  have cases := key.enterPair_cases valid validKey
  rw [toList_keySlice] at cases extended
  have stops : ∀ below : SearchKey,
      key.enterPair (keySlice digits true) = some below →
      below.content = [] → ¬ digits < key.content →
      Reaches trie (enteringNode sha3 (.leaf digits value) path ::
        turnsTrail sha3 turns) key (firstIterator sha3
          ((Trie.leaf digits value).cursorsFrom key.content path turns ++
            resume turns)) := by
    intro below entered nothing reached
    rw [cursorsFrom, if_neg reached]
    refine @Reaches.of_round trie _ _ _ _ (.exits (cursorIterator sha3
      ⟨.leaf digits value, path ++ digits, value, turns⟩)) _ read ?_ rfl
    rw [round, enterTwoItem_leaf small entered, SearchKey.empty_eq, nothing,
      List.isEmpty_nil, if_pos rfl, enteringNode, extended]
    rfl
  have passes : digits < key.content → ∀ below : SearchKey,
      nextRound (enc sha3 (.leaf digits value))
        (enteringNode sha3 (.leaf digits value) path)
        (turnsTrail sha3 turns) key =
          pure (.continues (turnsTrail sha3 turns) below.clear) →
      Reaches trie (enteringNode sha3 (.leaf digits value) path ::
        turnsTrail sha3 turns) key (firstIterator sha3
          ((Trie.leaf digits value).cursorsFrom key.content path turns ++
            resume turns)) := by
    intro before below passed
    rw [cursorsFrom, if_pos before, List.nil_append]
    refine @Reaches.of_round trie _ _ _ _ (.continues _ below.clear) _ read ?_
      (skips below)
    rw [passed]
    rfl
  rcases cases with ⟨inside, below, entered, -, content⟩ |
    ⟨-, before, below, entered, -, nothing⟩ | ⟨parted, notBefore, skipped⟩
  · obtain ⟨more, split⟩ := inside
    rw [← split, List.drop_left] at content
    cases more with
    | nil =>
        apply stops below entered content
        rw [← split, List.append_nil]
        exact lt_irrefl digits
    | cons digit more =>
        have before : digits < key.content := by
          rw [← split]
          exact lt_append_cons
        apply passes before below
        rw [round, enterTwoItem_leaf small entered, SearchKey.empty_eq, content]
        rfl
  · exact stops below entered nothing (lt_asymm before)
  · have less : digits ++ [] < key.content :=
      append_lt_of_not_lt parted notBefore
    rw [List.append_nil] at less
    apply passes less key
    rw [round, enterTwoItem_none small skipped]

theorem enters_ext {digits : List Nibble} {below : Node}
    (sound : Sound sha3 occurring trie)
    (canonical : Patricia.Trie.Canonical (.ext digits below))
    (short : Node.Short (.ext digits below))
    (stored : Stored sha3 trie (.ext digits below))
    (resumes : Resumes sha3 trie turns)
    (enters : Enters sha3 trie below (path ++ digits) turns) :
    Enters sha3 trie (.ext digits below) path turns := by
  intro key valid
  obtain ⟨-, branch, -⟩ := canonical
  have bound := encode_reference_length sha3 (item sha3 below)
  have small : SmallPair digits false (ref sha3 below) :=
    small_pair false short.1 (Nat.lt_of_le_of_lt bound (by decide))
  have read : rlpOf (enc sha3 (.ext digits below)) =
      pure (enc sha3 (.ext digits below)) := rlpOf_enc short
  have validKey := valid_keySlice digits false
  have extended := @extendKey_eq (enc sha3 (.ext digits below)) path 255 _
    validKey
  have round : nextRound (enc sha3 (.ext digits below))
      (enteringNode sha3 (.ext digits below) path) (turnsTrail sha3 turns)
      key = enterTwoItem (pairItem digits false (ref sha3 below)).encode
        (enteringNode sha3 (.ext digits below) path)
        (turnsTrail sha3 turns) key :=
    (nextRound_entering rfl).trans (enterNode_pair small)
  have cases := key.enterPair_cases valid validKey
  rw [toList_keySlice] at cases extended
  have descends : ∀ rest : SearchKey,
      key.enterPair (keySlice digits false) = some rest →
      (nextRound (enc sha3 (.ext digits below))
        (enteringNode sha3 (.ext digits below) path)
        (turnsTrail sha3 turns) key).run trie =
          .ok (.continues (enteringNode sha3 below (path ++ digits) ::
            turnsTrail sha3 turns) rest) trie := by
    intro rest entered
    rw [round, enterTwoItem_ext small entered, EStateM.run_bind,
      run_deref sound stored short.2 (ne_null_of_isBranch branch),
      enteringNode, extended]
    rfl
  rcases cases with ⟨inside, rest, entered, valid', content⟩ |
    ⟨parted, before, rest, entered, valid', nothing⟩ |
    ⟨parted, notBefore, skipped⟩
  · rw [cursorsFrom, if_pos inside, ← content]
    exact Reaches.of_round read (descends rest entered) (enters rest valid')
  · rw [cursorsFrom, if_neg parted, if_pos before, ← cursorsFrom_nil, ← nothing]
    exact Reaches.of_round read (descends rest entered) (enters rest valid')
  · rw [cursorsFrom, if_neg parted, if_neg notBefore, List.nil_append]
    refine @Reaches.of_round trie _ _ _ _ (.continues _ key.clear) _ read ?_
      (resumes _ SearchKey.valid_clear SearchKey.content_clear)
    rw [round, enterTwoItem_none small skipped]
    rfl

theorem isEmpty_slotBytes (value : Option TrieValue) :
    RLP.isEmpty (Item.data (slotBytes value)).encode = value.isNone := by
  have bound := slotBytes_length value
  have empty := RLP.isEmpty_encodeData [] (show (slotBytes value).length <
    RLP.readLimit by
      rw [RLP.readLimit_eq]
      omega)
  rw [List.append_nil] at empty
  rw [encode, empty]
  cases value with
  | none => rfl
  | some value =>
      obtain ⟨nonempty, -⟩ := value.property
      simpa [slotBytes] using nonempty

/-- The search at the value of a branch. -/
theorem search_value {children : Nibble → Node} {value : Option TrieValue}
    (all : SearchReaches sha3 trie children value path turns 0)
    {key : SearchKey} :
    ∃ progress : Progress,
      (searchChildren (enc sha3 (.branch children value))
        (turnsTrail sha3 turns) branchPositions
        (branchNode sha3 children value path 16) key).run trie =
          .ok progress trie ∧
      progress.Reaches trie (firstIterator sha3
        ((Trie.branch children value).cursors path turns ++ resume turns)) := by
  have small := small_branch_ref sha3 children value
  have entry : itemAt (enc sha3 (.branch children value)) 16 =
      pure (Item.data (slotBytes value)).encode := itemAt_branch_value small
  have here : (branchNode sha3 children value path 16).child = 16 := rfl
  rw [branchPositions, searchChildren_value here, entry, pure_bind,
    isEmpty_slotBytes]
  cases value with
  | none =>
      obtain ⟨progress, ran, reaches⟩ := all 17 (by omega) key.clear
        SearchKey.valid_clear SearchKey.content_clear
      exact ⟨progress, ran, reaches⟩
  | some value =>
      exact ⟨.exits (cursorIterator sha3
        ⟨.branch children (some value), path, value, turns⟩), rfl, rfl⟩

theorem enters_branch {children : Nibble → Node} {value : Option TrieValue}
    (sound : Sound sha3 occurring trie)
    (short : Node.Short (.branch children value))
    (stored : Stored sha3 trie (.branch children value))
    (resumes : Resumes sha3 trie turns)
    (enters : ∀ digit, Resumes sha3 trie
        (⟨children, value, path, digit⟩ :: turns) →
      Enters sha3 trie (children digit) (path ++ [digit])
        (⟨children, value, path, digit⟩ :: turns)) :
    Enters sha3 trie (.branch children value) path turns := by
  intro key valid
  have small := small_branch_ref sha3 children value
  have read : rlpOf (enc sha3 (.branch children value)) =
      pure (enc sha3 (.branch children value)) := rlpOf_enc short
  have round : nextRound (enc sha3 (.branch children value))
      (enteringNode sha3 (.branch children value) path)
      (turnsTrail sha3 turns) key = (do
        let (child, key) ← key.firstChild
        searchChildren (enc sha3 (.branch children value))
          (turnsTrail sha3 turns) branchPositions
          (branchNode sha3 children value path child) key) :=
    (nextRound_entering rfl).trans (enterNode_branch small)
  have searches : ∀ {start}, start ≤ 16 →
      SearchReaches sha3 trie children value path turns start :=
    searchReaches sound short stored resumes enters
  cases content : key.content with
  | nil =>
      obtain ⟨below, first, -, -⟩ := SearchKey.firstChild_nil valid content
      obtain ⟨progress, ran, reaches⟩ :=
        @search_value _ _ _ _ _ _ (searches (Nat.zero_le 16)) below
      refine Reaches.of_round read ?_ reaches
      rw [round, first, pure_bind]
      exact ran
  | cons digit target =>
      obtain ⟨below, first, validBelow, rest⟩ :=
        SearchKey.firstChild_cons valid content
      have behind := searches (show digit.val + 1 ≤ 16 from digit.isLt)
      obtain ⟨progress, ran, reaches⟩ := search_child sound short stored
        (enters digit (resumes_turn short behind)) behind
        (show 16 < 17 + (digit.val + 1) by omega) validBelow
      rw [rest, ← List.append_assoc] at reaches
      refine Reaches.of_round read ?_ reaches
      rw [round, first, pure_bind]
      exact ran

/-- From entering any node the loop comes to its first cursor from the key
on. -/
theorem enters {node : Node} (sound : Sound sha3 occurring trie)
    (canonical : node.Canonical) (short : node.Short)
    (stored : Stored sha3 trie node) (resumes : Resumes sha3 trie turns) :
    Enters sha3 trie node path turns := by
  induction node generalizing path turns with
  | null => exact enters_null resumes
  | leaf digits value => exact enters_leaf short resumes
  | ext digits below induction =>
      exact enters_ext sound canonical short stored resumes
        (induction canonical.2.2 short.2 stored.2 resumes)
  | branch children value induction =>
      exact enters_branch sound short stored resumes fun digit resumes =>
        induction digit (canonical.1 digit) (short digit) (stored digit).2
          resumes

end Entering

/-! ## Going on from a cursor -/

/-- A node that can be read with all below it. -/
structure Legible (sha3 : Bytes → H256) (trie : GenericTrieDB)
    (node : Node) : Prop where
  canonical : node.Canonical
  short : node.Short
  stored : Stored sha3 trie node

namespace Legible

theorem ext {digits : List Nibble} {below : Node}
    (legible : Legible sha3 trie (.ext digits below)) :
    Legible sha3 trie below :=
  ⟨legible.canonical.2.2, legible.short.2, legible.stored.2⟩

theorem branch {children : Nibble → Node} {value : Option TrieValue}
    (legible : Legible sha3 trie (.branch children value)) (digit : Nibble) :
    Legible sha3 trie (children digit) :=
  ⟨legible.canonical.1 digit, legible.short digit, (legible.stored digit).2⟩

end Legible

section Following

variable {turns : List (Turn 16 TrieValue)} {cursor : Cursor 16 TrieValue}

theorem resumes (sound : Sound sha3 occurring trie)
    (above : ∀ turn ∈ turns,
      Legible sha3 trie (.branch turn.children turn.value)) :
    Resumes sha3 trie turns := by
  induction turns with
  | nil => exact fun key _ _ => reaches_nil key
  | cons turn turns induction =>
      have legible := above turn List.mem_cons_self
      have resumes := induction fun turn member =>
        above turn (List.mem_cons_of_mem _ member)
      apply resumes_turn legible.short
      apply searchReaches sound legible.short legible.stored resumes ?_
        turn.digit.isLt
      intro digit resumes
      have below := legible.branch digit
      exact enters sound below.canonical below.short below.stored resumes

/-- From a cursor the loop comes to the one that follows. -/
theorem reaches_following (sound : Sound sha3 occurring trie)
    (legible : Legible sha3 trie cursor.node)
    (isAt : IsAt cursor.value cursor.node)
    (above : ∀ turn ∈ cursor.turns,
      Legible sha3 trie (.branch turn.children turn.value)) :
    Reaches trie (cursorIterator sha3 cursor).trail none
      (firstIterator sha3 cursor.following) := by
  obtain ⟨node, path, value, turns⟩ := cursor
  have isAt : IsAt value node := isAt
  have going := resumes sound above
  have read : rlpOf (enc sha3 node) = pure (enc sha3 node) :=
    rlpOf_enc legible.short
  cases isAt with
  | leaf digits =>
      have small : SmallPair digits true (.data value.val) :=
        small_pair true legible.short (encode_value_length value)
      refine @Reaches.of_round trie _ _ _ _ (.continues _ none) _ read ?_
        (going none (fun slice impossible => by cases impossible) rfl)
      exact congrArg (fun program => EStateM.run program trie)
        (continueNode_pair small)
  | branch children =>
      have small := small_branch_ref sha3 children (some value)
      obtain ⟨progress, ran, reaches⟩ := searchReaches sound legible.short
        legible.stored going (fun digit resumes =>
          enters sound (legible.branch digit).canonical
            (legible.branch digit).short (legible.branch digit).stored resumes)
        (Nat.zero_le 16) branchPositions (by decide) none
        (fun slice impossible => by cases impossible) rfl
      refine Reaches.of_round read ?_ reaches
      exact (congrArg (fun program => EStateM.run program trie)
        (continueNode_branch small)).trans ran

/-! ## What an iterator gives -/

theorem packNibbles_asNibbles (key : Bytes) :
    packNibbles (asNibbles key) = key := by
  apply asNibbles_injective
  apply asNibbles_packNibbles
  rw [length_asNibbles]
  omega

/-- An even number of nibbles in front of no flag. -/
theorem hexPrefix_asNibbles (key : Bytes) :
    hexPrefix (asNibbles key) false = 0x00 :: key := by
  have even : ¬ (asNibbles key).length % 2 = 1 := by
    rw [length_asNibbles]
    omega
  rw [hexPrefix, if_neg even, packNibbles_asNibbles]
  rfl

theorem payload_slot (value : Option TrieValue) :
    RLP.payload (Item.data (slotBytes value)).encode =
      .ok (slotBytes value) := by
  have bound := slotBytes_length value
  rw [encode]
  apply RLP.payload_encodeData
  rw [RLP.readLimit_eq]
  omega

theorem run_at_cursor {key : Bytes} (short : Node.Short cursor.node)
    (isAt : IsAt cursor.value cursor.node)
    (isKey : cursor.path = asNibbles key) :
    ((cursorIterator sha3 cursor).at_).run trie =
      .ok (key, cursor.value.val) trie := by
  obtain ⟨node, path, value, turns⟩ := cursor
  have isAt : IsAt value node := isAt
  have isKey : path = asNibbles key := isKey
  have read : rlpOf (enc sha3 node) = pure (enc sha3 node) := rlpOf_enc short
  have text : RLP.payload (Item.data (slotBytes (some value))).encode =
      .ok value.val := payload_slot (some value)
  have entry : (do
      let count ← ofRLP (RLP.itemCount (enc sha3 node))
      itemAt (enc sha3 node) (if count = 2 then 1 else 16)) =
        pure (Item.data (slotBytes (some value))).encode := by
    cases isAt with
    | leaf digits =>
        have small : SmallPair digits true (.data value.val) :=
          small_pair true short (encode_value_length value)
        rw [show enc sha3 (.leaf digits value) =
          (pairItem digits true (.data value.val)).encode from rfl,
          itemCount_pair small, pure_bind]
        exact itemAt_pair_second small
    | branch children =>
        have small := small_branch_ref sha3 children (some value)
        rw [show enc sha3 (.branch children (some value)) = (branchItem
          (fun digit => ref sha3 (children digit))
          (slotBytes (some value))).encode from rfl,
          itemCount_branch small, pure_bind]
        exact itemAt_branch_value small
  have split : (cursorIterator sha3 ⟨node, path, value, turns⟩).at_ = (do
      let entry ← (do
        let count ← ofRLP (RLP.itemCount (enc sha3 node))
        itemAt (enc sha3 node) (if count = 2 then 1 else 16))
      return (key, ← ofRLP (RLP.payload entry))) := by
    rw [TrieIterator.at_, cursorIterator, isKey, hexPrefix_asNibbles]
    simp only [List.head?_cons, inRange_some, pure_bind, read, bind_assoc]
    rfl
  rw [split, entry, pure_bind, text]
  rfl

end Following

/-! ## Iteration over a map -/

/-- A method returns a value and leaves the object as it is, given enough
rounds. -/
def Settles {α : Type} (trie : GenericTrieDB) (method : Nat → TrieM α)
    (value : α) : Prop :=
  ∃ enough, ∀ fuel, enough ≤ fuel → (method fuel).run trie = .ok value trie

/-- An iterator with the key and the value it is at. -/
structure Position where
  iterator : TrieIterator
  key : Bytes
  value : Bytes

/-- The iterator at the first of some positions, or the end. -/
def firstPosition (positions : List Position) : TrieIterator :=
  (positions.head?.map Position.iterator).getD TrieIterator.end_

/-- The positions are those of the map, in order of their keys; an iterator
goes through them from the beginning, or from a lower bound, to the end. -/
structure Iterates (trie : GenericTrieDB) (map : BytesMap)
    (positions : List Position) : Prop where
  ordered : positions.Pairwise fun one other => one.key < other.key
  complete : ∀ key value, (∃ position ∈ positions,
    position.key = key ∧ position.value = value) ↔ map.lookup key = some value
  begins : Settles trie TrieIterator.begin_ (firstPosition positions)
  isAt : ∀ position ∈ positions, position.iterator ≠ TrieIterator.end_ ∧
    position.iterator.at_.run trie = .ok (position.key, position.value) trie
  advances : ∀ before position after, positions = before ++ position :: after →
    Settles trie (fun fuel => position.iterator.next fuel)
      (firstPosition after)
  lowerBound : ∀ key, Settles trie
    (fun fuel => TrieIterator.lowerBound fuel key)
    (firstPosition (positions.filter fun position =>
      decide (key ≤ position.key)))

section Iteration

variable {map : BytesMap} {node : Node}

def cursorPosition (sha3 : Bytes → H256) (cursor : Cursor 16 TrieValue) :
    Position :=
  ⟨cursorIterator sha3 cursor, packNibbles cursor.path, cursor.value.val⟩

theorem firstPosition_map (cursors : List (Cursor 16 TrieValue)) :
    firstPosition (cursors.map (cursorPosition sha3)) =
      firstIterator sha3 cursors := by
  cases cursors <;> rfl

namespace Holding

theorem legible (holding : Holding sha3 occurring trie map node) :
    Legible sha3 trie node :=
  ⟨holding.canonical, holding.short, holding.stored⟩

/-- A cursor is at a key of the map. -/
theorem exists_cursor_key (holding : Holding sha3 occurring trie map node)
    {cursor : Cursor 16 TrieValue} (member : cursor ∈ node.cursors [] []) :
    ∃ key, cursor.path = asNibbles key ∧
      map.lookup key = some cursor.value.val := by
  obtain ⟨path, same, found⟩ := get_of_mem_cursors member
  obtain ⟨key, rfl, entry⟩ := holding.agrees.exists_key found
  exact ⟨key, same, entry⟩

theorem packNibbles_path (holding : Holding sha3 occurring trie map node)
    {cursor : Cursor 16 TrieValue} (member : cursor ∈ node.cursors [] []) :
    cursor.path = asNibbles (packNibbles cursor.path) := by
  obtain ⟨key, same, -⟩ := holding.exists_cursor_key member
  rw [same, packNibbles_asNibbles]

theorem run_firstTrail (holding : Holding sha3 occurring trie map node) :
    TrieIterator.firstTrail.run trie =
      .ok [enteringNode sha3 node []] trie := by
  have read := holding.node_root
  unfold TrieIterator.firstTrail
  rw [EStateM.run_bind]
  simp only [EStateM.run_get, EStateM.run_bind, read]
  rfl

/-- The loop from the root comes to the first cursor from the key on. -/
theorem returns_nextLoop (holding : Holding sha3 occurring trie map node)
    {key : SearchKey} (valid : key.Valid) :
    Settles trie (fun fuel => do
        nextLoop fuel (← TrieIterator.firstTrail) key)
      (firstIterator sha3 ((node.cursors [] []).filter
        (Cursor.reaches key.content))) := by
  obtain ⟨canonical, short, stored⟩ := holding.legible
  have resumes : Resumes sha3 trie [] := fun key _ _ => reaches_nil key
  obtain ⟨enough, reached⟩ := enters holding.sound canonical short stored
    resumes key valid
  refine ⟨enough, ?_⟩
  intro fuel more
  have ran := reached fuel more
  rw [cursorsFrom_eq, resume, List.append_nil, List.nil_append] at ran
  rw [EStateM.run_bind, holding.run_firstTrail]
  exact ran

/-- A key before a cursor. -/
theorem reaches_iff_le (holding : Holding sha3 occurring trie map node)
    {cursor : Cursor 16 TrieValue} (member : cursor ∈ node.cursors [] [])
    (key : Bytes) : cursor.reaches (asNibbles key) =
      decide (key ≤ (cursorPosition sha3 cursor).key) := by
  rw [Bool.eq_iff_iff, Cursor.reaches_iff, decide_eq_true_iff,
    holding.packNibbles_path member, asNibbles_lt_iff]
  exact List.not_lt

/-- An object that holds a map is iterated over in the order of the keys, and
a lower bound is where it is looked for. -/
theorem iterates (holding : Holding sha3 occurring trie map node) :
    ∃ positions, Iterates trie map positions := by
  have above : ∀ turn ∈ ([] : List (Turn 16 TrieValue)),
      Legible sha3 trie (.branch turn.children turn.value) := by
    intro turn member
    cases member
  have legible : ∀ {cursor}, cursor ∈ node.cursors [] [] →
      Legible sha3 trie cursor.node ∧ IsAt cursor.value cursor.node ∧
        ∀ turn ∈ cursor.turns,
          Legible sha3 trie (.branch turn.children turn.value) :=
    forall_cursors Legible.ext Legible.branch holding.legible above
  refine ⟨(node.cursors [] []).map (cursorPosition sha3), ?_, ?_, ?_, ?_, ?_,
    ?_⟩
  · rw [List.pairwise_map]
    apply cursors_pairwise.imp_of_mem
    intro one other member member' before
    rw [holding.packNibbles_path member,
      holding.packNibbles_path member'] at before
    exact asNibbles_lt_iff.mp before
  · intro key value
    constructor
    · rintro ⟨position, member, rfl, rfl⟩
      obtain ⟨cursor, inside, rfl⟩ := List.mem_map.mp member
      obtain ⟨key, same, entry⟩ := holding.exists_cursor_key inside
      rw [cursorPosition, same, packNibbles_asNibbles]
      exact entry
    · intro entry
      obtain ⟨held, found, same⟩ :=
        (holding.agrees (asNibbles key) value).mpr ⟨key, rfl, entry⟩
      obtain ⟨cursor, member, isPath, isValue⟩ :=
        @exists_cursor _ _ _ [] [] _ _ found
      refine ⟨_, List.mem_map_of_mem member, ?_, ?_⟩
      · rw [cursorPosition, isPath, List.nil_append, packNibbles_asNibbles]
      · rw [cursorPosition, isValue, same]
  · have returns := holding.returns_nextLoop
      (show SearchKey.Valid none from fun slice impossible => by
        cases impossible)
    rw [show SearchKey.content none = [] ++ [] from rfl, filter_reaches_nil,
      ← firstPosition_map] at returns
    exact returns
  · intro position member
    obtain ⟨cursor, inside, rfl⟩ := List.mem_map.mp member
    obtain ⟨readable, isAt, -⟩ := legible inside
    constructor
    · intro impossible
      cases impossible
    · exact run_at_cursor readable.short isAt (holding.packNibbles_path inside)
  · intro before position after split
    obtain ⟨front, rest, cursors, -, later⟩ := List.map_eq_append_iff.mp split
    obtain ⟨cursor, back, rfl, rfl, rfl⟩ := List.map_eq_cons_iff.mp later
    have inside : cursor ∈ node.cursors [] [] := by
      rw [cursors]
      exact List.mem_append_right _ List.mem_cons_self
    obtain ⟨readable, isAt, above⟩ := legible inside
    have reached := reaches_following holding.sound readable isAt above
    rw [following_eq cursors, resume, List.append_nil,
      ← firstPosition_map] at reached
    exact reached
  · intro key
    have returns := holding.returns_nextLoop
      (show SearchKey.Valid (some ⟨key, 0⟩) from fun slice same => by
        cases same
        exact Nat.zero_le _)
    have found : (node.cursors [] []).filter
        (Cursor.reaches (SearchKey.content (some ⟨key, 0⟩))) =
        (node.cursors [] []).filter fun cursor =>
          decide (key ≤ (cursorPosition sha3 cursor).key) :=
      List.filter_congr fun cursor member =>
        holding.reaches_iff_le member key
    rw [found, ← firstPosition_map] at returns
    rw [List.filter_map]
    exact returns

end Holding

theorem iterates_sample : ∃ trie positions,
    (session sampleHash (insertions sampleEntries)).run {} = .ok () trie ∧
      Iterates trie (contents (insertions sampleEntries)) positions := by
  have injective : Set.InjOn sampleHash
      (written sampleHash (insertions sampleEntries)) :=
    injOn_written (by decide +kernel)
  obtain ⟨trie, ran, node, holding⟩ :=
    session_ok (runs_insertions injective sampleEntries)
  obtain ⟨positions, iterates⟩ := holding.iterates
  exact ⟨trie, positions, ran, iterates⟩

end Iteration

end Aecmio
