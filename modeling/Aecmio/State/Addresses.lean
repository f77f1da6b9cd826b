import Aecmio.Chain.BlockHeader
import Aecmio.State.State

/-!
# The accounts of a state, page by page

`State::addresses(_beginHash, _maxResults)` scans the trie in the order of the
hashes of the addresses, until it has enough, and adds the changed accounts of
the cache.  What the hashed-key iterator of the trie goes through is given as
a list.
-/

namespace Aecmio

/-- `std::map<h256, Address>`. -/
structure AddressMap where
  entries : List (H256 × Address)
  ordered : entries.Pairwise fun first second => first.1.val < second.1.val

namespace AddressMap

def empty : AddressMap := ⟨[], .nil⟩

def size (addresses : AddressMap) : Nat := addresses.entries.length

def contains (addresses : AddressMap) (hash : H256) : Bool :=
  addresses.entries.any fun entry => entry.1 = hash

/-- `addresses[hash] = address`. -/
def assign (addresses : AddressMap) (hash : H256) (address : Address) :
    AddressMap where
  entries :=
    (addresses.entries.filter fun entry => entry.1.val < hash.val) ++
      (hash, address) ::
        addresses.entries.filter fun entry => hash.val < entry.1.val
  ordered := by
    refine List.pairwise_append.mpr ⟨addresses.ordered.filter _, ?_, ?_⟩
    · refine List.pairwise_cons.mpr ⟨?_, addresses.ordered.filter _⟩
      intro entry member
      exact of_decide_eq_true (List.mem_filter.mp member).2
    · intro lower below upper above
      have lowerLess := of_decide_eq_true (List.mem_filter.mp below).2
      rcases List.mem_cons.mp above with rfl | above
      · exact lowerLess
      · exact List.lt_trans lowerLess
          (of_decide_eq_true (List.mem_filter.mp above).2)

/-- `emplace` and `insert`, which leave an entry that is there. -/
def emplace (addresses : AddressMap) (hash : H256) (address : Address) :
    AddressMap :=
  if addresses.contains hash then addresses
  else addresses.assign hash address

/-- `insert` of a range. -/
def insertAll (addresses : AddressMap) (entries : List (H256 × Address)) :
    AddressMap :=
  entries.foldl (fun addresses entry => addresses.emplace entry.1 entry.2)
    addresses

/-- The first entries. -/
def take (addresses : AddressMap) (count : Nat) : AddressMap :=
  ⟨addresses.entries.take count,
    addresses.ordered.sublist (List.take_sublist _ _)⟩

end AddressMap

namespace State

/-- The account is marked as killed in the cache. -/
def deletedInCache (state : State) (address : Address) : Bool :=
  match state.cache.lookup address with
  | some account => account.isDirty && !account.isAlive
  | none => false

/-- The loop over the trie. -/
def scanAddresses (state : State) (maxResults : Nat) :
    List (H256 × Bytes) → AddressMap → AddressMap × H256
  | [], addresses => (addresses, zeroHash 32)
  | (hash, key) :: rest, addresses =>
      let address := FixedHash.ofBytes 20 key
      if state.deletedInCache address then
        scanAddresses state maxResults rest addresses
      else if addresses.size = maxResults then (addresses, hash)
      else scanAddresses state maxResults rest (addresses.assign hash address)

variable [Hashing]

/-- The changed accounts in the cache. -/
def cacheAddresses (state : State) (beginHash : H256) : AddressMap :=
  state.cacheEntries.foldl
    (fun addresses entry =>
      let addressHash := sha3 entry.1.val
      if entry.2.isDirty && entry.2.isAlive &&
          decide (beginHash.val ≤ addressHash.val) then
        addresses.emplace addressHash entry.1
      else addresses)
    .empty

/-- `addresses(_beginHash, _maxResults)`; the iterator goes through `entries`,
which are hashes and keys. -/
def addresses (state : State) (entries : List (H256 × Bytes))
    (beginHash : H256) (maxResults : Nat) : AddressMap × H256 :=
  let (addresses, nextKey) := state.scanAddresses maxResults
    (entries.filter fun entry => beginHash.val ≤ entry.1.val) .empty
  let addresses :=
    addresses.insertAll (state.cacheAddresses beginHash).entries
  match addresses.entries[maxResults]? with
  | some end_ => (addresses.take maxResults, end_.1)
  | none => (addresses, nextKey)

/-- Pages are asked for until the next key is zero. -/
def addressPages (state : State) (entries : List (H256 × Bytes))
    (maxResults : Nat) : Nat → H256 → Option (List AddressMap)
  | 0, _ => none
  | fuel + 1, beginHash =>
      let (page, nextKey) := state.addresses entries beginHash maxResults
      if nextKey = zeroHash 32 then some [page]
      else (addressPages state entries maxResults fuel nextKey).map (page :: ·)

end State

end Aecmio
