import Aecmio.Trie.TrieDB

/-!
# The history only grows

Every method either leaves the list of strings handed to the database alone
or adds to it.
-/

namespace Aecmio

set_option synthInstance.maxSize 1024

open Traced TrieM

/-- A method of the trie that keeps what it was told. -/
abbrev Keeps {α : Type} (method : TrieM α) : Prop :=
  Grows GenericTrieDB.history method

variable {α : Type}

instance keeps_ofRLP (result : Except RLPError α) : Keeps (ofRLP result) := by
  unfold ofRLP
  cases result <;> exact inferInstance

instance keeps_assert (condition : Bool) : Keeps (assert condition) := by
  unfold assert
  exact inferInstance

instance keeps_inRange (value : Option α) : Keeps (inRange value) := by
  unfold inRange
  cases value <;> exact inferInstance

instance keeps_rlpOf (text : Bytes) : Keeps (rlpOf text) := by
  unfold rlpOf
  exact inferInstance

instance keeps_itemAt (orig : Bytes) (slot : Nat) :
    Keeps (itemAt orig slot) := by
  unfold itemAt
  exact inferInstance

instance keeps_isLeaf (orig : Bytes) : Keeps (isLeaf orig) := by
  unfold isLeaf
  exact inferInstance

instance keeps_andLeaf (condition : Bool) (orig : Bytes) (leaf : Bool) :
    Keeps (andLeaf condition orig leaf) := by
  unfold andLeaf
  exact inferInstance

instance keeps_keyOf (orig : Bytes) : Keeps (keyOf orig) := by
  unfold keyOf
  exact inferInstance

instance keeps_uniqueInUse (orig : Bytes) (skipped : Nat) :
    Keeps (uniqueInUse orig skipped) := by
  have loop : ∀ slots used,
      Keeps (uniqueInUseLoop orig skipped slots used) := by
    intro slots
    induction slots with
    | nil =>
        intro used
        unfold uniqueInUseLoop
        exact inferInstance
    | cons slot slots induction =>
        intro used
        unfold uniqueInUseLoop
        exact inferInstance
  exact loop (List.range 17) 255

instance keeps_node (hash : H256) : Keeps (node hash) := by
  unfold node
  exact inferInstance

instance keeps_child (entry : Bytes) : Keeps (child entry) := by
  unfold child
  exact inferInstance

instance keeps_isTwoItemNode (entry : Bytes) :
    Keeps (isTwoItemNode entry) := by
  unfold isTwoItemNode
  exact inferInstance

instance keeps_rlpList
    (first second : RLPStream → Except RLPError RLPStream) :
    Keeps (rlpList first second) := by
  unfold rlpList
  exact inferInstance

instance keeps_copyItems (orig : Bytes) (slots : List Nat)
    (stream : RLPStream) : Keeps (copyItems orig slots stream) := by
  unfold copyItems
  exact inferInstance

instance keeps_nodeCount (orig : Bytes) : Keeps (nodeCount orig) := by
  unfold nodeCount
  exact inferInstance

instance keeps_setRoot (hash : H256) : Keeps (setRoot hash) where
  subset _ := List.Subset.refl _

instance keeps_forceKillNode (hash : H256) : Keeps (forceKillNode hash) where
  subset _ := List.Subset.refl _

instance keeps_killNodeHash (orig : Bytes) (hash : H256) :
    Keeps (killNodeHash orig hash) := by
  unfold killNodeHash
  exact inferInstance

instance keeps_killUnless (inLine : Bool) (orig : Bytes) (hash : H256) :
    Keeps (killUnless inLine orig hash) := by
  unfold killUnless
  exact inferInstance

variable (sha3 : Bytes → H256)

instance keeps_forceInsertNode (value : Bytes) :
    Keeps (forceInsertNode sha3 value) where
  subset trie := by
    intro entry member
    exact List.mem_cons_of_mem value member

instance keeps_killNode (orig : Bytes) : Keeps (killNode sha3 orig) := by
  unfold killNode
  exact inferInstance

instance keeps_streamNode (stream : RLPStream) (value : Bytes) :
    Keeps (streamNode sha3 stream value) := by
  unfold streamNode
  exact inferInstance

instance keeps_place (orig : Bytes) (key : NibbleSlice) (value : Bytes) :
    Keeps (place sha3 orig key value) := by
  unfold place
  exact inferInstance

instance keeps_cleve (orig : Bytes) (shared : Nat) :
    Keeps (cleve sha3 orig shared) := by
  unfold cleve
  exact inferInstance

instance keeps_takeChild (entry : Bytes) : Keeps (takeChild entry) := by
  unfold takeChild
  exact inferInstance

instance keeps_graft (orig : Bytes) : Keeps (graft orig) := by
  unfold graft
  exact inferInstance

instance keeps_mergeKey (orig : Bytes) (slot : Nat) :
    Keeps (mergeKey orig slot) := by
  unfold mergeKey
  exact inferInstance

instance keeps_merge (orig : Bytes) (slot : Nat) :
    Keeps (merge orig slot) := by
  unfold merge
  exact inferInstance

instance keeps_branch (orig : Bytes) : Keeps (branch sha3 orig) := by
  unfold branch
  exact inferInstance

instance keeps_mergeAtAux
    (recurse : Bytes → NibbleSlice → Bytes → Bool → TrieM Bytes)
    [∀ view key value inLine, Keeps (recurse view key value inLine)]
    (stream : RLPStream) (orig : Bytes) (key : NibbleSlice) (value : Bytes) :
    Keeps (mergeAtAux sha3 recurse stream orig key value) := by
  unfold mergeAtAux
  exact inferInstance

instance keeps_mergeAt (fuel : Nat) (orig : Bytes) (hash : H256)
    (key : NibbleSlice) (value : Bytes) (inLine : Bool) :
    Keeps (mergeAt sha3 fuel orig hash key value inLine) := by
  induction fuel generalizing orig hash key value inLine with
  | zero =>
      unfold mergeAt
      exact inferInstance
  | succ fuel induction =>
      unfold mergeAt
      exact inferInstance

instance keeps_replaceRoot (root : H256) (rootValue result : Bytes) :
    Keeps (replaceRoot sha3 root rootValue result) := by
  unfold replaceRoot
  exact inferInstance

instance keeps_insert (key value : Bytes) : Keeps (insert sha3 key value) := by
  unfold insert
  exact inferInstance

instance keeps_deleteAtAux (recurse : Bytes → NibbleSlice → TrieM Bytes)
    [∀ view key, Keeps (recurse view key)]
    (stream : RLPStream) (orig : Bytes) (key : NibbleSlice) :
    Keeps (deleteAtAux sha3 recurse stream orig key) := by
  unfold deleteAtAux
  exact inferInstance

instance keeps_mergeUnique (orig : Bytes) (used : Nat) :
    Keeps (mergeUnique orig used) := by
  unfold mergeUnique
  exact inferInstance

instance keeps_valueHere (orig : Bytes) (key : NibbleSlice) :
    Keeps (valueHere orig key) := by
  unfold valueHere
  exact inferInstance

instance keeps_finishPair (orig : Bytes) (written : Option RLPStream) :
    Keeps (finishPair sha3 orig written) := by
  unfold finishPair
  cases written <;> exact inferInstance

instance keeps_deleteSlot (recurse : Bytes → NibbleSlice → TrieM Bytes)
    [∀ view key, Keeps (recurse view key)] (orig : Bytes) (key : NibbleSlice)
    (digit : Nibble) (written : Option RLPStream) (slot : Nat) :
    Keeps (deleteSlot sha3 recurse orig key digit written slot) := by
  unfold deleteSlot
  cases written <;> exact inferInstance

instance keeps_finishBranch (orig : Bytes) (written : Option RLPStream) :
    Keeps (finishBranch sha3 orig written) := by
  unfold finishBranch
  cases written <;> exact inferInstance

instance keeps_deleteAt (fuel : Nat) (orig : Bytes) (key : NibbleSlice) :
    Keeps (deleteAt sha3 fuel orig key) := by
  induction fuel generalizing orig key with
  | zero =>
      unfold deleteAt
      exact inferInstance
  | succ fuel induction =>
      unfold deleteAt
      exact inferInstance

instance keeps_remove (key : Bytes) : Keeps (remove sha3 key) := by
  unfold remove
  exact inferInstance

instance keeps_init : Keeps (init sha3) := by
  unfold init
  exact inferInstance

end Aecmio
