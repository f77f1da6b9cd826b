import Mathlib.Data.List.AList
import Aecmio.Rlp.Stream
import Aecmio.Trie.Nibbles

/-!
# The one-shot root of a map

`TrieHash.cpp` computes the root hash of a complete map: the keys are sorted
as sequences of nibbles, and a recursive pass over segments of the sorted
sequence writes the nodes.  A pair of iterators is modelled by the list of
entries between them.
-/

namespace Aecmio

/-- `std::map<bytes, bytes>`; only its contents matter here. -/
abbrev BytesMap := AList (fun _ : Bytes => Bytes)

/-- An entry of `HexMap`, the map from sequences of nibbles. -/
abbrev HexEntry := List Nibble × Bytes

/-- `hexMap[_key] = _value` on the sorted entries. -/
def hexInsert (key : List Nibble) (value : Bytes) :
    List HexEntry → List HexEntry
  | [] => [(key, value)]
  | entry :: entries =>
      if key < entry.1 then (key, value) :: entry :: entries
      else if key = entry.1 then (key, value) :: entries
      else entry :: hexInsert key value entries

/-- The sorted map that the entries give. -/
def hexMap (entries : List (Sigma fun _ : Bytes => Bytes)) : List HexEntry :=
  entries.foldr
    (fun entry hexMap => hexInsert (asNibbles entry.1) entry.2 hexMap) []

theorem neZero_sixteen : NeZero 16 := inferInstance

attribute [local instance] neZero_sixteen

/-- The innermost loop of `hash256rlp`, at most `rounds` times. -/
def sharedFrom (first other : List Nibble) : Nat → Nat → Nat
  | 0, shared => shared
  | rounds + 1, shared =>
      if first.getD shared 0 = other.getD shared 0 then
        sharedFrom first other rounds (shared + 1)
      else shared

/-- How many nibbles a segment shares, `preLen` of them being known. -/
def sharedPre (first : List Nibble) (preLen : Nat) (others : List HexEntry) :
    Nat :=
  others.foldl
    (fun sharedPre other =>
      if sharedPre = 0 then sharedPre
      else
        let bound := min sharedPre (min first.length other.1.length)
        min (sharedFrom first other.1 (bound - preLen) preLen) sharedPre)
    (2 ^ 32 - 1)

section Hash

variable (sha3 : Bytes → H256)

/-- `hash256aux` over a given `hash256rlp`. -/
def hash256aux
    (hash256rlp : List HexEntry → Nat → RLPStream → Except RLPError RLPStream)
    (segment : List HexEntry) (preLen : Nat) (stream : RLPStream) :
    Except RLPError RLPStream := do
  let inner ← hash256rlp segment preLen {}
  let text ← inner.result
  if text.length < 32 then stream.appendRaw text 1
  else stream.append (sha3 text).val

/-- The nibble at `preLen` is `digit`. -/
def continuesWith (preLen digit : Nat) (entry : HexEntry) : Bool :=
  entry.1[preLen]?.map Fin.val == some digit

/-- One round of the loop over the sixteen slots: the stream, and the entries
that are left. -/
def hash256slot
    (hash256rlp : List HexEntry → Nat → RLPStream → Except RLPError RLPStream)
    (preLen : Nat) (state : RLPStream × List HexEntry) (digit : Nat) :
    Except RLPError (RLPStream × List HexEntry) := do
  let now := state.2.takeWhile (continuesWith preLen digit)
  let later := state.2.dropWhile (continuesWith preLen digit)
  if now.isEmpty then return (← state.1.append [], later)
  else
    return (← hash256aux sha3 hash256rlp now (preLen + 1) state.1, later)

def hash256rlp : Nat → List HexEntry → Nat → RLPStream →
    Except RLPError RLPStream
  | 0, _, _, _ => .error .diverges
  | fuel + 1, segment, preLen, stream =>
      match segment with
      | [] => stream.append []
      | [entry] => do
          let stream ← stream.appendList 2
          let stream ← stream.append
            (hexPrefixEncodeVector entry.1 true preLen)
          stream.append entry.2
      | entry :: others => do
          let shared := sharedPre entry.1 preLen others
          if preLen < shared then
            let stream ← stream.appendList 2
            let stream ← stream.append
              (hexPrefixEncodeVector entry.1 false preLen shared)
            hash256aux sha3 (hash256rlp fuel) (entry :: others) shared stream
          else
            let stream ← stream.appendList 17
            let start := if preLen = entry.1.length then others
              else entry :: others
            let (stream, _) ← (List.range 16).foldlM
              (hash256slot sha3 (hash256rlp fuel) preLen) (stream, start)
            if preLen = entry.1.length then stream.append entry.2
            else stream.append []

def rlp256 (map : BytesMap) : Except RLPError Bytes :=
  if map.entries.isEmpty then do (← RLPStream.append [] {}).result
  else do
    let entries := hexMap map.entries
    let longest := (entries.map fun entry => entry.1.length).foldr max 0
    (← hash256rlp sha3 (longest + 2) entries 0 {}).result

def hash256 (map : BytesMap) : Except RLPError H256 := do
  return sha3 (← rlp256 sha3 map)

end Hash

end Aecmio
