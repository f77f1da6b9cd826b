import Aecmio.Logic.Traced
import Aecmio.Rlp.Stream
import Aecmio.Trie.MemoryDB
import Aecmio.Trie.Nibbles

/-!
# The trie operations

`GenericTrieDB<MemoryDB>` as in `TrieDB.h`: nodes are RLP strings, kept in
line below 32 bytes and in the database under their hash otherwise.  The
methods run in `EStateM` over the object; a failed assertion is an error, and
the recursive methods take the number of calls they may still make.
The hash function `sha3` is a parameter.
-/

namespace Aecmio

inductive TrieError where
  | rlp (error : RLPError)
  | assertion
  | rootNotFound
  | badRoot
  | invalidTrie
  | outOfFuel
deriving DecidableEq, Repr

/-- The object.  `history` lists the strings handed to the database; no
method reads it. -/
structure GenericTrieDB where
  root : H256 := ⟨List.replicate 32 0, length_zeroes_h256⟩
  db : MemoryDB := {}
  history : List Bytes := []

abbrev TrieM := EStateM TrieError GenericTrieDB

namespace TrieM

def ofRLP {α : Type} : Except RLPError α → TrieM α
  | .ok value => pure value
  | .error error => throw (.rlp error)

def assert (condition : Bool) : TrieM Unit :=
  if condition then pure () else throw .assertion

/-- An access that asserts that its index is in range. -/
def inRange {α : Type} : Option α → TrieM α
  | some value => pure value
  | none => throw .assertion

end TrieM

open TrieM

/-! ## Reading nodes -/

def RLPNull : Bytes := [0x80]

/-- The constructor `RLP(_s)`, which is very strict by default. -/
def rlpOf (text : Bytes) : TrieM Bytes := ofRLP (RLP.construct text .veryStrict)

/-- `_orig[_i]`. -/
def itemAt (orig : Bytes) (position : Nat) : TrieM Bytes :=
  ofRLP (RLP.at_ orig position)

def isLeaf (twoItem : Bytes) : TrieM Bool := do
  let count ← ofRLP (RLP.itemCount twoItem)
  assert (RLP.isList twoItem && count == 2)
  let content ← ofRLP (RLP.payload (← itemAt twoItem 0))
  let first ← inRange content.head?
  return first &&& 0x20 != 0

/-- `_condition && isLeaf(_orig) == _leaf`, evaluated from left to right. -/
def andLeaf (condition : Bool) (twoItem : Bytes) (leaf : Bool) :
    TrieM Bool := do
  if condition then return (← isLeaf twoItem) == leaf
  else return false

def keyOf (twoItem : Bytes) : TrieM NibbleSlice := do
  return keyOfHexPrefix (← ofRLP (RLP.payload (← itemAt twoItem 0)))

/-- The loop of `uniqueInUse`; 255 stands for no slot. -/
def uniqueInUseLoop (orig : Bytes) (skipped : Nat) : List Nat → Nat → TrieM Nat
  | [], used => pure used
  | slot :: slots, used => do
      if slot ≠ skipped then
        let entry ← itemAt orig slot
        if RLP.isEmpty entry then uniqueInUseLoop orig skipped slots used
        else if used = 255 then uniqueInUseLoop orig skipped slots slot
        else return 255
      else uniqueInUseLoop orig skipped slots used

def uniqueInUse (orig : Bytes) (skipped : Nat) : TrieM Nat :=
  uniqueInUseLoop orig skipped (List.range 17) 255

/-- `node(_h)`: the string in the database. -/
def node (hash : H256) : TrieM Bytes := do
  return (← get).db.lookup hash

/-- A child as it stands in its parent, or the node its hash refers to. -/
def child (entry : Bytes) : TrieM Bytes := do
  if RLP.isList entry then return entry
  else rlpOf (← node (← ofRLP (RLP.toHash 32 entry)))

/-- The two sides of `||` exclude each other. -/
def isTwoItemNode (entry : Bytes) : TrieM Bool := do
  if RLP.isData entry then
    let text ← node (← ofRLP (RLP.toHash 32 entry))
    return (← ofRLP (RLP.itemCount (← rlpOf text))) == 2
  else if RLP.isList entry then
    return (← ofRLP (RLP.itemCount entry)) == 2
  else return false

/-! ## Writing nodes -/

/-- `rlpList(_a, _b)`; the arguments append themselves. -/
def rlpList (first second : RLPStream → Except RLPError RLPStream) :
    TrieM Bytes := do
  let stream ← ofRLP (RLPStream.ofCount 2)
  let stream ← ofRLP (first stream)
  let stream ← ofRLP (second stream)
  ofRLP stream.result

/-- Append the items of `orig` in the given slots as they are. -/
def copyItems (orig : Bytes) (slots : List Nat) (stream : RLPStream) :
    TrieM RLPStream :=
  slots.foldlM
    (fun stream slot => do
      ofRLP (stream.appendRaw (← itemAt orig slot) 1)) stream

section Operations

variable (sha3 : Bytes → H256)

def forceInsertNode (value : Bytes) : TrieM H256 := do
  modify fun trie =>
    { trie with
      db := trie.db.insert (sha3 value) value
      history := value :: trie.history }
  return sha3 value

/-- The assignment to the root. -/
def setRoot (hash : H256) : TrieM Unit :=
  modify fun trie => { trie with root := hash }

def forceKillNode (hash : H256) : TrieM Unit :=
  modify fun trie => { trie with db := (trie.db.kill hash).1 }

def killNode (orig : Bytes) : TrieM Unit :=
  if 32 ≤ orig.length then forceKillNode (sha3 orig) else pure ()

def killNodeHash (orig : Bytes) (hash : H256) : TrieM Unit :=
  if 32 ≤ orig.length then forceKillNode hash else pure ()

/-- `if (!_inLine) killNode(_orig, _origHash)`. -/
def killUnless (inLine : Bool) (orig : Bytes) (hash : H256) : TrieM Unit :=
  if inLine then pure () else killNodeHash orig hash

def streamNode (stream : RLPStream) (value : Bytes) : TrieM RLPStream := do
  if value.length < 32 then ofRLP (stream.appendRaw value 1)
  else
    let hash ← forceInsertNode sha3 value
    ofRLP (stream.append hash.val)

/-! ## Node surgery -/

/-- The assertion that a node is a pair or a branch; gives its item count. -/
def nodeCount (orig : Bytes) : TrieM Nat := do
  let count ← ofRLP (RLP.itemCount orig)
  assert (RLP.isList orig && (count == 2 || count == 17))
  return count

def place (orig : Bytes) (key : NibbleSlice) (value : Bytes) :
    TrieM Bytes := do
  killNode sha3 orig
  if RLP.isEmpty orig then
    rlpList (RLPStream.append (key.hexPrefixEncode true))
      (RLPStream.append value)
  else
    let count ← nodeCount orig
    if count = 2 then
      let first ← itemAt orig 0
      rlpList (RLPStream.appendRaw first 1) (RLPStream.append value)
    else
      let stream ← ofRLP (RLPStream.ofCount 17)
      let stream ← copyItems orig (List.range 16) stream
      let stream ← ofRLP (stream.append value)
      ofRLP stream.result

def cleve (orig : Bytes) (shared : Nat) : TrieM Bytes := do
  killNode sha3 orig
  let count ← ofRLP (RLP.itemCount orig)
  assert (RLP.isList orig && count == 2)
  let key ← keyOf orig
  assert (shared ≠ 0 && shared ≤ key.size)
  let leaf ← isLeaf orig
  let second ← itemAt orig 1
  let bottom ← rlpList (RLPStream.append (key.hexPrefixEncode leaf shared))
    (RLPStream.appendRaw second 1)
  let top ← ofRLP (RLPStream.ofCount 2)
  let top ← ofRLP (top.append (key.hexPrefixEncode false 0 shared))
  let top ← streamNode sha3 top bottom
  ofRLP top.result

/-- The node under an item, taken out of the database if it is there. -/
def takeChild (entry : Bytes) : TrieM Bytes := do
  if RLP.isList entry then return entry
  else
    let hash ← ofRLP (RLP.toHash 32 entry)
    let text ← node hash
    forceKillNode hash
    rlpOf text

def graft (orig : Bytes) : TrieM Bytes := do
  let count ← ofRLP (RLP.itemCount orig)
  assert (RLP.isList orig && count == 2)
  let below ← takeChild (← itemAt orig 1)
  let count ← ofRLP (RLP.itemCount below)
  assert (count == 2)
  let key ← keyOf orig
  let keyBelow ← keyOf below
  let leaf ← isLeaf below
  let second ← itemAt below 1
  rlpList (RLPStream.append (key.hexPrefixEncodeWith keyBelow leaf))
    (RLPStream.appendRaw second 1)

/-- The hex-prefix string of a slot. -/
def mergeKey (orig : Bytes) (slot : Nat) : TrieM Bytes := do
  if slot ≠ 16 then
    assert (!RLP.isEmpty (← itemAt orig slot))
    return hexPrefixEncodeRef [UInt8.ofNat slot] false 1 2 0
  else return hexPrefixEncodeVector [] true

def merge (orig : Bytes) (slot : Nat) : TrieM Bytes := do
  let count ← ofRLP (RLP.itemCount orig)
  assert (RLP.isList orig && count == 17)
  let key ← mergeKey orig slot
  let entry ← itemAt orig slot
  rlpList (RLPStream.append key) (RLPStream.appendRaw entry 1)

def branch (orig : Bytes) : TrieM Bytes := do
  let count ← ofRLP (RLP.itemCount orig)
  assert (RLP.isList orig && count == 2)
  killNode sha3 orig
  let key ← keyOf orig
  let stream ← ofRLP (RLPStream.ofCount 17)
  if key.size = 0 then
    assert (← isLeaf orig)
    let stream ← (List.range 16).foldlM
      (fun (stream : RLPStream) _ => ofRLP (stream.append [])) stream
    let stream ← ofRLP (stream.appendRaw (← itemAt orig 1) 1)
    ofRLP stream.result
  else
    let first ← inRange (key.index 0)
    let stream ← (List.range 16).foldlM
      (fun (stream : RLPStream) slot => do
        if slot = first.val then
          let leaf ← isLeaf orig
          if leaf || 1 < key.size then
            let second ← itemAt orig 1
            let below ← rlpList
              (RLPStream.append ((key.mid 1).hexPrefixEncode leaf))
              (RLPStream.appendRaw second 1)
            streamNode sha3 stream below
          else ofRLP (stream.appendRaw (← itemAt orig 1) 1)
        else ofRLP (stream.append [])) stream
    let stream ← ofRLP (stream.append [])
    ofRLP stream.result

/-! ## Insertion -/

/-- `mergeAtAux` over a given `mergeAt`. -/
def mergeAtAux (mergeAt : Bytes → NibbleSlice → Bytes → Bool → TrieM Bytes)
    (stream : RLPStream) (orig : Bytes) (key : NibbleSlice) (value : Bytes) :
    TrieM RLPStream := do
  if !RLP.isList orig && !RLP.isEmpty orig then
    let text ← node (← ofRLP (RLP.toHash 32 orig))
    let view ← rlpOf text
    assert (!RLP.isNull view)
    streamNode sha3 stream (← mergeAt view key value false)
  else streamNode sha3 stream (← mergeAt orig key value true)

/-- `mergeAt`, with the hash of the original node. -/
def mergeAt : Nat → Bytes → H256 → NibbleSlice → Bytes → Bool → TrieM Bytes
  | 0, _, _, _, _, _ => throw .outOfFuel
  | fuel + 1, orig, origHash, key, value, inLine => do
      -- the overload that hashes the node itself
      let recurse := fun view => mergeAt fuel view (sha3 view)
      if RLP.isEmpty orig then place sha3 orig key value
      else
        let count ← nodeCount orig
        if count = 2 then
          let here ← keyOf orig
          if ← andLeaf (here.equals key) orig true then
            place sha3 orig key value
          else if ← andLeaf (key.contains here) orig false then
            killUnless inLine orig origHash
            let stream ← ofRLP (RLPStream.ofCount 2)
            let stream ← ofRLP (stream.appendRaw (← itemAt orig 0) 1)
            let stream ← mergeAtAux sha3 recurse stream (← itemAt orig 1)
              (key.mid here.size) value
            ofRLP stream.result
          else
            let shared := key.shared here
            if shared ≠ 0 then
              let cleved ← cleve sha3 orig shared
              recurse (← rlpOf cleved) key value true
            else
              let branched ← branch sha3 orig
              recurse (← rlpOf branched) key value true
        else if key.size = 0 then place sha3 orig key value
        else
          killUnless inLine orig origHash
          let digit ← inRange (key.index 0)
          let stream ← ofRLP (RLPStream.ofCount 17)
          let stream ← (List.range 17).foldlM
            (fun (stream : RLPStream) slot => do
              if slot = digit.val then
                mergeAtAux sha3 recurse stream (← itemAt orig slot)
                  (key.mid 1) value
              else ofRLP (stream.appendRaw (← itemAt orig slot) 1)) stream
          ofRLP stream.result

/-- Calls that a descent along a key can need. -/
def descentFuel (key : Bytes) : Nat := key.length * 2 + 6

/-- Put a new root in the place of the old one, whose own kill skips small
nodes although the root is always hashed. -/
def replaceRoot (root : H256) (rootValue result : Bytes) : TrieM Unit := do
  if rootValue.length < 32 then
    forceKillNode root
    setRoot (← forceInsertNode sha3 result)
  else setRoot (← forceInsertNode sha3 result)

def insert (key value : Bytes) : TrieM Unit := do
  let root := (← get).root
  let rootValue ← node root
  assert (!rootValue.isEmpty)
  let view ← rlpOf rootValue
  let merged ← mergeAt sha3 (descentFuel key) view root ⟨key, 0⟩ value false
  replaceRoot sha3 root rootValue merged

/-! ## Lookup -/

def atAux : Nat → Bytes → NibbleSlice → TrieM Bytes
  | 0, _, _ => throw .outOfFuel
  | fuel + 1, here, key => do
      if RLP.isEmpty here || RLP.isNull here then return []
      let count ← nodeCount here
      if count = 2 then
        let nodeKey ← keyOf here
        if ← andLeaf (key.equals nodeKey) here true then
          ofRLP (RLP.toString (← itemAt here 1))
        else if ← andLeaf (key.contains nodeKey) here false then
          atAux fuel (← child (← itemAt here 1)) (key.mid nodeKey.size)
        else return []
      else if key.size = 0 then ofRLP (RLP.toString (← itemAt here 16))
      else
        let digit ← inRange (key.index 0)
        let entry ← itemAt here digit.val
        if RLP.isEmpty entry then return []
        atAux fuel (← child entry) (key.mid 1)

def at_ (key : Bytes) : TrieM Bytes := do
  atAux (descentFuel key) (← rlpOf (← node (← get).root)) ⟨key, 0⟩

/-! ## Removal -/

/-- `deleteAtAux` over a given `deleteAt`; `none` when nothing was found. -/
def deleteAtAux (deleteAt : Bytes → NibbleSlice → TrieM Bytes)
    (stream : RLPStream) (orig : Bytes) (key : NibbleSlice) :
    TrieM (Option RLPStream) := do
  let result ←
    if RLP.isEmpty orig then pure []
    else do deleteAt (← child orig) key
  if result.isEmpty then return none
  else return some (← streamNode sha3 stream result)

/-- Merge a branch into its only slot. -/
def mergeUnique (orig : Bytes) (used : Nat) : TrieM Bytes := do
  if ← isTwoItemNode (← itemAt orig used) then
    let merged ← merge orig used
    graft (← rlpOf merged)
  else merge orig used

/-- What `deleteAt` does with a pair after its child was rewritten. -/
def finishPair (orig : Bytes) : Option RLPStream → TrieM Bytes
  | none => return []
  | some stream => do
      killNode sha3 orig
      let result ← ofRLP stream.result
      let view ← rlpOf result
      if ← isTwoItemNode (← itemAt view 1) then graft view
      else return result

/-- One round of the loop over the slots of a branch; `none` after the key
was not found. -/
def deleteSlot (deleteAt : Bytes → NibbleSlice → TrieM Bytes) (orig : Bytes)
    (key : NibbleSlice) (digit : Nibble) :
    Option RLPStream → Nat → TrieM (Option RLPStream)
  | none, _ => return none
  | some stream, slot => do
      if slot = digit.val then
        deleteAtAux sha3 deleteAt stream (← itemAt orig slot) (key.mid 1)
      else return some (← ofRLP (stream.appendRaw (← itemAt orig slot) 1))

/-- What `deleteAt` does with a branch after one slot was rewritten. -/
def finishBranch (orig : Bytes) : Option RLPStream → TrieM Bytes
  | none => return []
  | some stream => do
      killNode sha3 orig
      let result ← ofRLP stream.result
      let view ← rlpOf result
      let used ← uniqueInUse view 255
      if used = 255 then return result
      else mergeUnique view used

/-- `_k.size() == 0 && !_orig[16].isEmpty()`. -/
def valueHere (orig : Bytes) (key : NibbleSlice) : TrieM Bool := do
  if key.size = 0 then return !RLP.isEmpty (← itemAt orig 16)
  else return false

/-- `deleteAt`; the empty string when the key is not there. -/
def deleteAt : Nat → Bytes → NibbleSlice → TrieM Bytes
  | 0, _, _ => throw .outOfFuel
  | fuel + 1, orig, key => do
      if RLP.isEmpty orig then return []
      let count ← nodeCount orig
      if count = 2 then
        let here ← keyOf orig
        if ← andLeaf (here.equals key) orig true then
          killNode sha3 orig
          return RLPNull
        -- unlike in `mergeAt`, a leaf is not excluded here
        else if key.contains here then
          let stream ← ofRLP (RLPStream.ofCount 2)
          let stream ← ofRLP (stream.appendRaw (← itemAt orig 0) 1)
          finishPair sha3 orig (← deleteAtAux sha3 (deleteAt fuel) stream
            (← itemAt orig 1) (key.mid here.size))
        else return []
      else if ← valueHere orig key then
        killNode sha3 orig
        let used ← uniqueInUse orig 16
        if used ≠ 255 then mergeUnique orig used
        else
          let stream ← ofRLP (RLPStream.ofCount 17)
          let stream ← copyItems orig (List.range 16) stream
          let stream ← ofRLP (stream.append [])
          ofRLP stream.result
      else
        let stream ← ofRLP (RLPStream.ofCount 17)
        let digit ← inRange (key.index 0)
        let written ← (List.range 17).foldlM
          (deleteSlot sha3 (deleteAt fuel) orig key digit) (some stream)
        finishBranch sha3 orig written

def remove (key : Bytes) : TrieM Unit := do
  let root := (← get).root
  let rootValue ← node root
  let result ← deleteAt sha3 (descentFuel key) (← rlpOf rootValue) ⟨key, 0⟩
  if result.isEmpty then return
  else replaceRoot sha3 root rootValue result

/-! ## The root -/

def emptyTrie : H256 := sha3 RLPNull

/-- `root()`. -/
def root : TrieM H256 := do
  let hash := (← get).root
  if (← node hash).isEmpty then throw .badRoot
  else return hash

/-- `init()`: `setRoot` of the stored empty node, which is therefore found
and not initialised again. -/
def init : TrieM Unit := do
  let hash ← forceInsertNode sha3 RLPNull
  setRoot hash
  if (← node hash).isEmpty then throw .rootNotFound
  else assert (!(← node hash).isEmpty)

/-! ## Consistency check -/

/-- `descendList` over a given `descendEntry`, without an output stream. -/
def descendList (descendEntry : Bytes → List H256 → Bool → TrieM (List H256))
    (view : Bytes) (keyMask : List H256) (wasExt : Bool) :
    TrieM (List H256) := do
  let count ← ofRLP (RLP.itemCount view)
  if RLP.isList view && count == 2 && !wasExt then
    if ← isLeaf view then return keyMask
    else descendEntry (← itemAt view 1) keyMask true
  else if RLP.isList view && count == 17 then
    (List.range 16).foldlM
      (fun keyMask slot => do
        let entry ← itemAt view slot
        if RLP.isEmpty entry then return keyMask
        else descendEntry entry keyMask false) keyMask
  else throw .invalidTrie

/-- `descendKey` over a given `descendEntry`. -/
def descendKey (descendEntry : Bytes → List H256 → Bool → TrieM (List H256))
    (hash : H256) (keyMask : List H256) (wasExt : Bool) :
    TrieM (List H256) := do
  let keyMask := keyMask.filter (· ≠ hash)
  let root := (← get).root
  if hash = root ∧ hash = emptyTrie sha3 then return keyMask
  else
    let view ← rlpOf (← node hash)
    descendList descendEntry view keyMask wasExt

def descendEntry : Nat → Bytes → List H256 → Bool → TrieM (List H256)
  | 0, _, _, _ => throw .outOfFuel
  | fuel + 1, entry, keyMask, wasExt => do
      if RLP.isData entry && (← ofRLP (RLP.size entry)) == 32 then
        descendKey sha3 (descendEntry fuel) (← ofRLP (RLP.toHash 32 entry))
          keyMask wasExt
      else if RLP.isList entry then
        descendList (descendEntry fuel) entry keyMask wasExt
      else throw .invalidTrie

/-- `leftOvers()`; `fuel` bounds the depth of the scan. -/
def leftOvers (fuel : Nat) : TrieM (List H256) := do
  let trie ← get
  descendKey sha3 (descendEntry sha3 fuel) trie.root trie.db.keys false

/-- `check(_requireNoLeftOvers)`; exceptions are caught, a failed assertion
is not. -/
def check (fuel : Nat) (requireNoLeftOvers : Bool) : TrieM Bool := fun trie =>
  match (leftOvers sha3 fuel).run trie with
  | .ok keys trie => .ok (keys.isEmpty || !requireNoLeftOvers) trie
  | .error .assertion trie => .error .assertion trie
  | .error .outOfFuel trie => .error .outOfFuel trie
  | .error _ trie => .ok false trie

end Operations

end Aecmio
