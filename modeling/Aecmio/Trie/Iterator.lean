import Aecmio.Trie.TrieDB

/-!
# Iterators

`GenericTrieDB::iterator` as in `TrieDB.h`: a trail of nodes with a position
in each.  `next()` and `next(_key)` are one loop, with nothing and with a key
to look for.  A loop takes the number of rounds that it may still make.
-/

namespace Aecmio

open TrieM

/-- `GenericTrieDB::iterator::Node`. -/
structure IteratorNode where
  rlp : Bytes
  /-- A hex-prefix string. -/
  key : Bytes
  /-- 255 on entering, 16 at the node itself, then the children from 0 to 15,
  and 17 on exiting. -/
  child : UInt8
deriving DecidableEq

namespace IteratorNode

def setChild (node : IteratorNode) (child : UInt8) : IteratorNode :=
  { node with child }

def incrementChild (node : IteratorNode) : IteratorNode :=
  { node with
    child := if node.child = 16 then 0 else if node.child = 15 then 17
      else node.child + 1 }

/-- The key with more nibbles. -/
def extendKey (node : IteratorNode) (more : NibbleSlice) : IteratorNode :=
  { node with
    key := (keyOfHexPrefix node.key).hexPrefixEncodeWith more false }

end IteratorNode

/-- `GenericTrieDB::iterator`, with the back of `m_trail` first.  `m_that` is
the object that the methods run over; it takes no part in comparisons. -/
structure TrieIterator where
  trail : List IteratorNode := []
deriving DecidableEq

/-- What is left of the key that `next(_key)` looks for; nothing in `next()`. -/
abbrev SearchKey := Option NibbleSlice

namespace SearchKey

def clear (key : SearchKey) : SearchKey := key.map fun _ => .cleared

/-- What is left below a pair; nothing if the pair is skipped. -/
def enterPair (key : SearchKey) (keyOfRLP : NibbleSlice) : Option SearchKey :=
  match key with
  | none => some none
  | some slice =>
      if slice.contains keyOfRLP then
        some (some (slice.mid (min slice.size keyOfRLP.size)))
      else if slice.isEarlierThan keyOfRLP then
        some (some (NibbleSlice.cleared.mid
          (min NibbleSlice.cleared.size keyOfRLP.size)))
      else none

def empty (key : SearchKey) : Bool := key.all NibbleSlice.empty

/-- The child of a branch to begin with, and what is left below it. -/
def firstChild (key : SearchKey) : TrieM (UInt8 × SearchKey) :=
  match key with
  | none => return (16, none)
  | some slice => do
      if slice.size ≠ 0 then
        let first ← inRange (slice.index 0)
        return (UInt8.ofNat first.val, some (slice.mid 1))
      else return (16, some slice)

end SearchKey

/-- How a round of the loop ends. -/
inductive Progress where
  | exits (iterator : TrieIterator)
  | continues (trail : List IteratorNode) (key : SearchKey)

/-- `deref(_n)`. -/
def deref (entry : Bytes) : TrieM Bytes := do
  if RLP.isList entry then return entry
  else node (← ofRLP (RLP.toHash 32 entry))

/-- The loop over the children of a branch. -/
def searchChildren (rlp : Bytes) (rest : List IteratorNode) :
    Nat → IteratorNode → SearchKey → TrieM Progress
  | 0, _, _ => throw .outOfFuel
  | rounds + 1, back, key => do
      if back.child = 17 then return .continues rest key.clear
      else
        let entry ← itemAt rlp back.child.toNat
        if !RLP.isEmpty entry then
          if back.child = 16 then return .exits ⟨back :: rest⟩
          else
            let below : IteratorNode := ⟨← deref entry, back.key, 255⟩
            return .continues
              (below.extendKey ⟨[back.child], 1⟩ :: back :: rest) key
        else searchChildren rlp rest rounds back.incrementChild key.clear

/-- A pair is turned into its child, or it is a leaf. -/
def enterTwoItem (rlp : Bytes) (back : IteratorNode)
    (rest : List IteratorNode) (key : SearchKey) : TrieM Progress := do
  let keyOfRLP ← keyOf rlp
  match key.enterPair keyOfRLP with
  | none => return .continues rest key.clear
  | some key =>
      let back := back.extendKey keyOfRLP
      if ← isLeaf rlp then
        if key.empty then return .exits ⟨back.setChild 0 :: rest⟩
        else return .continues rest key.clear
      else
        let below ← deref (← itemAt rlp 1)
        return .continues ({ back with rlp := below } :: rest) key

/-- Positions of a branch. -/
def branchPositions : Nat := 18

/-- Entering. -/
def enterNode (rlp : Bytes) (back : IteratorNode) (rest : List IteratorNode)
    (key : SearchKey) : TrieM Progress := do
  if RLP.isEmpty rlp then return .continues rest key.clear
  else
    let count ← ofRLP (RLP.itemCount rlp)
    if !RLP.isList rlp || (count != 2 && count != 17) then
      return .exits ⟨back :: rest⟩
    else if count = 2 then enterTwoItem rlp back rest key
    else
      let (child, key) ← key.firstChild
      searchChildren rlp rest branchPositions (back.setChild child) key

/-- Continuing or exiting. -/
def continueNode (rlp : Bytes) (back : IteratorNode)
    (rest : List IteratorNode) (key : SearchKey) : TrieM Progress := do
  let count ← ofRLP (RLP.itemCount rlp)
  if !(RLP.isList rlp && count == 17) then return .continues rest key.clear
  else searchChildren rlp rest branchPositions back.incrementChild key

/-- A round of the loop. -/
def nextRound (rlp : Bytes) (back : IteratorNode) (rest : List IteratorNode)
    (key : SearchKey) : TrieM Progress :=
  if back.child = 255 then enterNode rlp back rest key
  else continueNode rlp back rest key

/-- `next(_key)`, and `next()` for nothing to look for. -/
def nextLoop : Nat → List IteratorNode → SearchKey → TrieM TrieIterator
  | 0, _, _ => throw .outOfFuel
  | _ + 1, [], _ => return {}
  | fuel + 1, back :: rest, key => do
      let rlp ← rlpOf back.rlp
      match ← nextRound rlp back rest key with
      | .exits iterator => return iterator
      | .continues trail key => nextLoop fuel trail key

namespace TrieIterator

/-- The trail of an iterator that is constructed: one null byte is the
hex-prefix string of the empty key. -/
def firstTrail : TrieM (List IteratorNode) := do
  return [⟨← node (← get).root, [0x00], 255⟩]

/-- `begin()`. -/
def begin_ (fuel : Nat) : TrieM TrieIterator := do
  nextLoop fuel (← firstTrail) none

/-- `lower_bound(_key)`. -/
def lowerBound (fuel : Nat) (key : Bytes) : TrieM TrieIterator := do
  nextLoop fuel (← firstTrail) (some ⟨key, 0⟩)

/-- `end()`. -/
def end_ : TrieIterator := {}

/-- `operator++`. -/
def next (fuel : Nat) (iterator : TrieIterator) : TrieM TrieIterator :=
  nextLoop fuel iterator.trail none

/-- `operator*`. -/
def at_ (iterator : TrieIterator) : TrieM (Bytes × Bytes) := do
  let back ← inRange iterator.trail.head?
  let first ← inRange back.key.head?
  assert (first &&& 0x10 == 0)
  let rlp ← rlpOf back.rlp
  let count ← ofRLP (RLP.itemCount rlp)
  let entry ← itemAt rlp (if count = 2 then 1 else 16)
  return (back.key.drop 1, ← ofRLP (RLP.payload entry))

end TrieIterator

end Aecmio
