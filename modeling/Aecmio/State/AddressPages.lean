import Aecmio.Logic.Paging
import Aecmio.State.Addresses

/-!
# The pages of the accounts and the accounts that exist

The pages are compared with the ordered list of the accounts that exist.  A
page continues at the hash that the scan of the trie stopped at, or, when the
changed accounts of the cache make it too long, at the first entry that is cut
off.  The second choice forgets where the scan stopped.
-/

namespace Aecmio

/-- Hashes are compared byte by byte. -/
abbrev hashOrder : LinearOrder H256 where
  le first second := first.val ≤ second.val
  lt first second := first.val < second.val
  le_refl hash := List.le_refl hash.val
  le_trans _ _ _ := List.le_trans
  le_antisymm _ _ first second := Subtype.ext (List.le_antisymm first second)
  le_total first second := List.le_total first.val second.val
  lt_iff_le_not_ge first second := by
    constructor
    · intro less
      exact ⟨List.le_of_lt less, fun greater => greater less⟩
    · rintro ⟨-, less⟩
      exact List.not_le.mp less
  toDecidableLE first second :=
    inferInstanceAs (Decidable (first.val ≤ second.val))
  toDecidableLT first second :=
    inferInstanceAs (Decidable (first.val < second.val))
  compare first second :=
    if first.val < second.val then .lt
    else if first = second then .eq else .gt
  compare_eq_compareOfLessAndEq _ _ := rfl

attribute [local instance] hashOrder

theorem zeroes_le (bytes : Bytes) :
    List.replicate bytes.length 0 ≤ bytes := by
  induction bytes with
  | nil => exact List.le_refl _
  | cons byte bytes induction =>
      rw [List.length_cons, List.replicate_succ, List.cons_le_cons_iff]
      by_cases zero : byte = 0
      · exact .inr ⟨zero.symm, induction⟩
      · exact .inl (UInt8.pos_iff_ne_zero.mpr zero)

theorem zeroHash_le (hash : H256) : zeroHash 32 ≤ hash := by
  have least := zeroes_le hash.val
  rw [hash.property] at least
  exact least

namespace AddressMap

variable {addresses : AddressMap} {entries : List (H256 × Address)}
  {entry : H256 × Address} {hash : H256} {address : Address}

def hashes (addresses : AddressMap) : List H256 :=
  addresses.entries.map Prod.fst

theorem hashes_increasing (addresses : AddressMap) :
    Paging.Increasing addresses.hashes :=
  List.pairwise_map.mpr addresses.ordered

theorem contains_iff : addresses.contains hash = true ↔
    hash ∈ addresses.hashes := by
  simp only [contains, hashes, List.any_eq_true, decide_eq_true_eq,
    List.mem_map]

/-- What is assigned after all others is put at the end. -/
theorem assign_last
    (last : ∀ entry ∈ addresses.entries, entry.1.val < hash.val) :
    (addresses.assign hash address).entries =
      addresses.entries ++ [(hash, address)] := by
  have before : (addresses.entries.filter
      fun entry => decide (entry.1.val < hash.val)) = addresses.entries := by
    rw [List.filter_eq_self]
    exact fun entry member => decide_eq_true (last entry member)
  have behind : (addresses.entries.filter
      fun entry => decide (hash.val < entry.1.val)) = [] := by
    rw [List.filter_eq_nil_iff]
    intro entry member later
    exact List.lt_asymm (last entry member) (of_decide_eq_true later)
  have unfolded : (addresses.assign hash address).entries =
      (addresses.entries.filter
        fun entry => decide (entry.1.val < hash.val)) ++
      (hash, address) :: addresses.entries.filter
        fun entry => decide (hash.val < entry.1.val) := rfl
  rw [unfolded, before, behind]

theorem mem_emplace
    (member : entry ∈ (addresses.emplace hash address).entries) :
    entry ∈ addresses.entries ∨ entry = (hash, address) := by
  unfold emplace assign at member
  split at member
  · exact .inl member
  · rcases List.mem_append.mp member with below | above
    · exact .inl (List.mem_filter.mp below).1
    · rcases List.mem_cons.mp above with same | above
      · exact .inr same
      · exact .inl (List.mem_filter.mp above).1

theorem mem_hashes_emplace {other : H256} :
    other ∈ (addresses.emplace hash address).hashes ↔
      other ∈ addresses.hashes ∨ other = hash := by
  unfold emplace
  split
  next present =>
      constructor
      · exact .inl
      · rintro (member | rfl)
        · exact member
        · exact contains_iff.mp present
  next =>
      constructor
      · intro member
        simp only [hashes, assign, List.map_append, List.map_cons,
          List.mem_append, List.mem_cons, List.mem_map, List.mem_filter]
          at member ⊢
        rcases member with ⟨entry, ⟨member, -⟩, same⟩ | same |
          ⟨entry, ⟨member, -⟩, same⟩
        · exact .inl ⟨entry, member, same⟩
        · exact .inr same
        · exact .inl ⟨entry, member, same⟩
      · intro either
        simp only [hashes, assign, List.map_append, List.map_cons,
          List.mem_append, List.mem_cons, List.mem_map, List.mem_filter,
          decide_eq_true_eq] at either ⊢
        rcases either with ⟨entry, member, rfl⟩ | same
        · rcases lt_trichotomy entry.1 hash with below | same | above
          · exact .inl ⟨entry, ⟨member, below⟩, rfl⟩
          · exact .inr (.inl same)
          · exact .inr (.inr ⟨entry, ⟨member, above⟩, rfl⟩)
        · exact .inr (.inl same)

theorem mem_insertAll (member : entry ∈ (addresses.insertAll entries).entries) :
    entry ∈ addresses.entries ∨ entry ∈ entries := by
  induction entries generalizing addresses with
  | nil => exact .inl member
  | cons first entries induction =>
      rcases induction member with before | later
      · rcases mem_emplace before with old | new
        · exact .inl old
        · rw [new]
          exact .inr List.mem_cons_self
      · exact .inr (List.mem_cons_of_mem _ later)

theorem mem_hashes_insertAll :
    hash ∈ (addresses.insertAll entries).hashes ↔
      hash ∈ addresses.hashes ∨ ∃ entry ∈ entries, entry.1 = hash := by
  induction entries generalizing addresses with
  | nil => simp [insertAll]
  | cons first entries induction =>
      have unfolded : addresses.insertAll (first :: entries) =
          (addresses.emplace first.1 first.2).insertAll entries := rfl
      rw [unfolded, induction, mem_hashes_emplace, List.exists_mem_cons_iff,
        or_assoc, @eq_comm _ hash]

theorem hashes_take (addresses : AddressMap) (count : Nat) :
    (addresses.take count).hashes = addresses.hashes.take count :=
  List.map_take

end AddressMap

namespace State

variable {state : State} {entries : List (H256 × Bytes)} {size : Nat}

/-! ## The scan of the trie -/

/-- The entries that are not marked as killed. -/
def kept (state : State) (entries : List (H256 × Bytes)) :
    List (H256 × Bytes) :=
  entries.filter fun entry =>
    !state.deletedInCache (FixedHash.ofBytes 20 entry.2)

def readEntry (entry : H256 × Bytes) : H256 × Address :=
  (entry.1, FixedHash.ofBytes 20 entry.2)

theorem scanAddresses_eq {addresses : AddressMap}
    (ordered : entries.Pairwise fun first second =>
      first.1.val < second.1.val)
    (before : ∀ entry ∈ addresses.entries, ∀ later ∈ entries,
      entry.1.val < later.1.val)
    (few : addresses.size ≤ size) :
    (state.scanAddresses size entries addresses).1.entries =
        addresses.entries ++
          ((state.kept entries).take (size - addresses.size)).map readEntry ∧
      (state.scanAddresses size entries addresses).2 =
        ((state.kept entries)[size - addresses.size]?.map Prod.fst).getD
          (zeroHash 32) := by
  induction entries generalizing addresses with
  | nil => simp [scanAddresses, kept]
  | cons entry entries induction =>
      obtain ⟨hash, key⟩ := entry
      obtain ⟨least, ordered⟩ := List.pairwise_cons.mp ordered
      have later : ∀ entry ∈ addresses.entries, ∀ later ∈ entries,
          entry.1.val < later.1.val :=
        fun entry member later inside =>
          before entry member later (List.mem_cons_of_mem _ inside)
      rw [scanAddresses]
      by_cases deleted : state.deletedInCache (FixedHash.ofBytes 20 key) = true
      · have dropped : state.kept ((hash, key) :: entries) =
            state.kept entries := by
          simp [kept, deleted]
        rw [if_pos deleted, dropped]
        exact induction ordered later few
      have taken : state.kept ((hash, key) :: entries) =
          (hash, key) :: state.kept entries := by
        simp [kept, deleted]
      rw [if_neg deleted, taken]
      by_cases full : addresses.size = size
      · rw [if_pos full, full, Nat.sub_self]
        simp
      · have last := @AddressMap.assign_last addresses hash
          (FixedHash.ofBytes 20 key)
          fun entry member => before entry member _ List.mem_cons_self
        have longer : (addresses.assign hash
            (FixedHash.ofBytes 20 key)).size = addresses.size + 1 := by
          rw [AddressMap.size, last, List.length_append]
          rfl
        rw [if_neg full]
        obtain ⟨scanned, next⟩ := @induction
          (addresses.assign hash (FixedHash.ofBytes 20 key)) ordered
          (by
            intro entry member other inside
            rw [last] at member
            rcases List.mem_append.mp member with old | new
            · exact later entry old other inside
            · rw [List.mem_singleton.mp new]
              exact least other inside)
          (by omega)
        obtain ⟨more, left⟩ : ∃ more, size - addresses.size = more + 1 :=
          ⟨size - addresses.size - 1, by omega⟩
        have fewer : size - (addresses.size + 1) = more := by omega
        rw [longer, fewer] at scanned next
        rw [scanned, next, last, left, List.take_succ_cons, List.map_cons,
          List.getElem?_cons_succ, List.append_assoc]
        exact ⟨rfl, rfl⟩

/-! ## Accounts that exist -/

/-- The account is in the cache, changed and alive. -/
def Changed (state : State) (address : Address) : Prop :=
  ∃ account, state.cache.lookup address = some account ∧
    account.isDirty = true ∧ account.isAlive = true

/-- A changed account exists if it is alive, another one if the trie has
it. -/
def Existing (state : State) (address : Address) : Prop :=
  match state.cache.lookup address with
  | some account =>
      if account.isDirty then account.isAlive = true
      else address.val ∈ state.trie
  | none => address.val ∈ state.trie

theorem existing_iff {address : Address} :
    state.Existing address ↔ state.Changed address ∨
      address.val ∈ state.trie ∧ state.deletedInCache address = false := by
  unfold Existing Changed deletedInCache
  cases state.cache.lookup address with
  | none => simp
  | some account =>
      cases dirty : account.isDirty <;> cases alive : account.isAlive <;>
        simp [dirty, alive]

/-- The addresses that the trie or the cache has. -/
def known (state : State) : Set Address :=
  {address | address.val ∈ state.trie ∨ address ∈ state.cache}

theorem Changed.known {address : Address} (changed : state.Changed address) :
    address ∈ state.known := by
  obtain ⟨account, found, -⟩ := changed
  exact .inr (AList.lookup_isSome.mp (by rw [found]; rfl))

theorem Existing.known {address : Address}
    (existing : state.Existing address) : address ∈ state.known := by
  rcases existing_iff.mp existing with changed | ⟨stored, -⟩
  · exact changed.known
  · exact .inl stored

theorem Existing.not_deleted {address : Address}
    (existing : state.Existing address) :
    state.deletedInCache address = false := by
  rcases existing_iff.mp existing with ⟨account, found, -, alive⟩ | ⟨-, kept⟩
  · simp [deletedInCache, found, alive]
  · exact kept

theorem mem_cacheEntries {entry : Address × Account} :
    entry ∈ state.cacheEntries ↔
      state.cache.lookup entry.1 = some entry.2 := by
  rw [cacheEntries, List.mem_map]
  constructor
  · rintro ⟨held, member, rfl⟩
    exact AList.mem_lookup_iff.mpr member
  · intro found
    exact ⟨⟨entry.1, entry.2⟩, AList.mem_lookup_iff.mp found, rfl⟩

variable [Hashing]

/-- What the iterator of the trie goes through: the keys of the trie, which
are addresses, in the order of their hashes. -/
structure Iterated (state : State) (entries : List (H256 × Bytes)) :
    Prop where
  ordered : entries.Pairwise fun first second => first.1.val < second.1.val
  mem_iff : ∀ entry, entry ∈ entries ↔
    entry.2 ∈ state.trie ∧ entry.1 = sha3 entry.2
  addressed : ∀ key ∈ state.trie, key.length = 20

/-- The existing accounts, in the order of their hashes. -/
def Lists (state : State) (listing : AddressMap) : Prop :=
  ∀ entry, entry ∈ listing.entries ↔
    state.Existing entry.2 ∧ entry.1 = sha3 entry.2.val

theorem cacheAddresses_eq (state : State) (start : H256) :
    state.cacheAddresses start = AddressMap.empty.insertAll
      ((state.cacheEntries.filter fun entry =>
        entry.2.isDirty && entry.2.isAlive &&
          decide (start.val ≤ (sha3 entry.1.val).val)).map
        fun entry => (sha3 entry.1.val, entry.1)) := by
  rw [AddressMap.insertAll, List.foldl_map, List.foldl_filter]
  rfl

theorem mem_cacheAddresses {start : H256} {entry : H256 × Address}
    (member : entry ∈ (state.cacheAddresses start).entries) :
    entry.1 = sha3 entry.2.val ∧ state.Changed entry.2 := by
  rw [cacheAddresses_eq] at member
  rcases AddressMap.mem_insertAll member with none | inserted
  · cases none
  · obtain ⟨held, kept, rfl⟩ := List.mem_map.mp inserted
    obtain ⟨inCache, test⟩ := List.mem_filter.mp kept
    simp only [Bool.and_eq_true] at test
    exact ⟨rfl, held.2, mem_cacheEntries.mp inCache, test.1⟩

theorem mem_hashes_cacheAddresses {start hash : H256} :
    hash ∈ (state.cacheAddresses start).hashes ↔
      (∃ address, state.Changed address ∧ sha3 address.val = hash) ∧
        start ≤ hash := by
  rw [cacheAddresses_eq, AddressMap.mem_hashes_insertAll]
  constructor
  · rintro (none | ⟨entry, inserted, same⟩)
    · cases none
    · obtain ⟨held, kept, rfl⟩ := List.mem_map.mp inserted
      obtain ⟨inCache, test⟩ := List.mem_filter.mp kept
      simp only [Bool.and_eq_true, decide_eq_true_eq] at test
      rw [← same]
      exact ⟨⟨held.1, ⟨held.2, mem_cacheEntries.mp inCache, test.1⟩, rfl⟩,
        test.2⟩
  · rintro ⟨⟨address, ⟨account, found, dirty, alive⟩, rfl⟩, later⟩
    refine .inr ⟨(sha3 address.val, address), ?_, rfl⟩
    apply List.mem_map.mpr
    refine ⟨(address, account), List.mem_filter.mpr ⟨?_, ?_⟩, rfl⟩
    · exact mem_cacheEntries.mpr found
    · simp only [dirty, alive, Bool.and_self, Bool.true_and]
      exact decide_eq_true later

namespace Iterated

variable {listing : AddressMap} {start : H256}

theorem kept_ordered (iterated : state.Iterated entries) :
    Paging.Increasing ((state.kept entries).map Prod.fst) :=
  List.pairwise_map.mpr (iterated.ordered.filter _)

/-- A stored hash belongs to an address that the trie has and that is not
marked as killed. -/
theorem mem_stored (iterated : state.Iterated entries) {hash : H256} :
    hash ∈ (state.kept entries).map Prod.fst ↔
      ∃ address : Address, address.val ∈ state.trie ∧
        state.deletedInCache address = false ∧ sha3 address.val = hash := by
  rw [List.mem_map]
  constructor
  · rintro ⟨entry, member, rfl⟩
    obtain ⟨listed, kept⟩ := List.mem_filter.mp member
    obtain ⟨stored, hashed⟩ := (iterated.mem_iff entry).mp listed
    have read := FixedHash.ofBytes_val
      (⟨entry.2, iterated.addressed entry.2 stored⟩ : Address)
    rw [read] at kept
    exact ⟨⟨entry.2, _⟩, stored, by simpa using kept, hashed.symm⟩
  · rintro ⟨address, stored, kept, rfl⟩
    refine ⟨(sha3 address.val, address.val), List.mem_filter.mpr ⟨?_, ?_⟩,
      rfl⟩
    · exact (iterated.mem_iff _).mpr ⟨stored, rfl⟩
    · dsimp only
      rw [FixedHash.ofBytes_val, kept]
      rfl

/-- The hashes of the trie are scanned, and those of the changed accounts are
merged in. -/
def sources (iterated : state.Iterated entries) (lists : state.Lists listing) :
    Paging.Sources H256 where
  stored := (state.kept entries).map Prod.fst
  fresh := {hash | ∃ address, state.Changed address ∧ sha3 address.val = hash}
  all := listing.hashes
  stored_ordered := iterated.kept_ordered
  all_ordered := listing.hashes_increasing
  mem_all hash := by
    rw [iterated.mem_stored, AddressMap.hashes, List.mem_map]
    constructor
    · rintro ⟨entry, member, rfl⟩
      obtain ⟨existing, hashed⟩ := (lists entry).mp member
      rw [hashed]
      rcases existing_iff.mp existing with changed | ⟨stored, kept⟩
      · exact .inr ⟨entry.2, changed, rfl⟩
      · exact .inl ⟨entry.2, stored, kept, rfl⟩
    · rintro (⟨address, stored, kept, rfl⟩ | ⟨address, changed, rfl⟩)
      · exact ⟨(sha3 address.val, address), (lists _).mpr
          ⟨existing_iff.mpr (.inr ⟨stored, kept⟩), rfl⟩, rfl⟩
      · exact ⟨(sha3 address.val, address), (lists _).mpr
          ⟨existing_iff.mpr (.inl changed), rfl⟩, rfl⟩

/-! ## One page -/

@[simp] theorem addressPages_succ (state : State)
    (entries : List (H256 × Bytes)) (size fuel : Nat) (start : H256) :
    state.addressPages entries size (fuel + 1) start =
      if (state.addresses entries start size).2 = zeroHash 32 then
        some [(state.addresses entries start size).1]
      else (state.addressPages entries size fuel
        (state.addresses entries start size).2).map
          ((state.addresses entries start size).1 :: ·) := rfl

theorem scan_hashes (iterated : state.Iterated entries)
    (lists : state.Lists listing) (size : Nat) (start : H256) :
    (state.scanAddresses size
        (entries.filter fun entry => start.val ≤ entry.1.val)
        .empty).1.hashes =
        ((iterated.sources lists).scanned start).take size ∧
      (state.scanAddresses size
        (entries.filter fun entry => start.val ≤ entry.1.val) .empty).2 =
        (((iterated.sources lists).scanned start)[size]?).getD
          (zeroHash 32) := by
  obtain ⟨scanned, next⟩ := @scanAddresses_eq state _ size .empty
    (iterated.ordered.filter fun entry => start.val ≤ entry.1.val) nofun
    (Nat.zero_le size)
  have same : (state.kept (entries.filter fun entry =>
      decide (start.val ≤ entry.1.val))).map Prod.fst =
      (iterated.sources lists).scanned start := by
    simp only [kept, Paging.Sources.scanned, sources, List.filter_map,
      List.filter_filter]
    congr 1
    exact List.filter_congr fun entry _ => Bool.and_comm _ _
  have read : ∀ list : List (H256 × Bytes),
      (list.map readEntry).map Prod.fst = list.map Prod.fst := by
    intro list
    rw [List.map_map]
    rfl
  constructor
  · rw [AddressMap.hashes, scanned, List.map_append, read, List.map_take, same]
    rfl
  · rw [next, ← same, List.getElem?_map]
    rfl

theorem page (iterated : state.Iterated entries)
    (lists : state.Lists listing) (size : Nat) (start : H256) :
    ∃ next, Paging.IsPage (iterated.sources lists) size start
        (state.addresses entries start size).1.hashes next ∧
      (state.addresses entries start size).2 = next.getD (zeroHash 32) := by
  obtain ⟨scanned, stopped⟩ := iterated.scan_hashes lists size start
  unfold addresses
  generalize state.scanAddresses size
    (entries.filter fun entry => start.val ≤ entry.1.val) .empty = scan
    at scanned stopped ⊢
  dsimp only
  have members : ∀ key,
      key ∈ (scan.1.insertAll (state.cacheAddresses start).entries).hashes ↔
        key ∈ ((iterated.sources lists).scanned start).take size ∨
          (key ∈ (iterated.sources lists).fresh ∧ start ≤ key) := by
    intro key
    have cached : (∃ entry ∈ (state.cacheAddresses start).entries,
        entry.1 = key) ↔ key ∈ (state.cacheAddresses start).hashes := by
      rw [AddressMap.hashes, List.mem_map]
    rw [AddressMap.mem_hashes_insertAll, cached, mem_hashes_cacheAddresses,
      scanned]
    rfl
  generalize scan.1.insertAll (state.cacheAddresses start).entries = merged
    at members ⊢
  have isPage := Paging.IsPage.mk merged.hashes merged.hashes_increasing
    members
  have length : merged.hashes.length = merged.entries.length :=
    List.length_map ..
  cases cut : merged.entries[size]? with
  | some end_ =>
      have longer := (List.getElem?_eq_some_iff.mp cut).1
      have nextHash : merged.hashes[size]? = some end_.1 := by
        rw [AddressMap.hashes, List.getElem?_map, cut]
        rfl
      rw [if_pos (length ▸ longer), nextHash] at isPage
      refine ⟨some end_.1, ?_, rfl⟩
      rw [← AddressMap.hashes_take] at isPage
      exact isPage
  | none =>
      have few := List.getElem?_eq_none_iff.mp cut
      rw [if_neg (by omega), List.take_of_length_le (by omega)] at isPage
      exact ⟨((iterated.sources lists).scanned start)[size]?, isPage, stopped⟩

/-- What a page has are known addresses under their hashes. -/
theorem page_known (iterated : state.Iterated entries) {size : Nat}
    {start : H256} {entry : H256 × Address}
    (member : entry ∈ (state.addresses entries start size).1.entries) :
    entry.2 ∈ state.known ∧ entry.1 = sha3 entry.2.val := by
  have merged : entry ∈ ((state.scanAddresses size
      (entries.filter fun entry => start.val ≤ entry.1.val)
      .empty).1.insertAll (state.cacheAddresses start).entries).entries := by
    simp only [addresses] at member
    split at member
    · exact List.mem_of_mem_take member
    · exact member
  rcases AddressMap.mem_insertAll merged with scanned | cached
  · have nothing : ∀ entry ∈ AddressMap.empty.entries, ∀ later ∈
        entries.filter fun entry => start.val ≤ entry.1.val,
        entry.1.val < later.1.val := by
      intro entry member
      cases member
    rw [(scanAddresses_eq (iterated.ordered.filter _) nothing
      (Nat.zero_le size)).1] at scanned
    rcases List.mem_append.mp scanned with none | scanned
    · cases none
    obtain ⟨held, taken, rfl⟩ := List.mem_map.mp scanned
    have listed : held ∈ entries :=
      (List.mem_filter.mp (List.mem_filter.mp
        (List.mem_of_mem_take taken)).1).1
    obtain ⟨stored, hashed⟩ := (iterated.mem_iff held).mp listed
    have read := FixedHash.ofBytes_val
      (⟨held.2, iterated.addressed held.2 stored⟩ : Address)
    simp only [readEntry, read]
    exact ⟨.inl stored, hashed⟩
  · obtain ⟨hashed, changed⟩ := mem_cacheAddresses cached
    exact ⟨changed.known, hashed⟩

/-! ## All pages -/

omit [Hashing] in
theorem ne_zeroHash {first second : H256} (less : first < second) :
    second ≠ zeroHash 32 := by
  rintro rfl
  exact absurd less (not_lt_of_ge (zeroHash_le first))

/-- The pages are found, with as many steps as there are accounts left. -/
theorem run (iterated : state.Iterated entries) (lists : state.Lists listing)
    (positive : 0 < size) (steps : Nat) (start : H256)
    (few : ((iterated.sources lists).rest start).length ≤ steps) :
    ∃ pages, Paging.Pages (iterated.sources lists) size start
        (pages.map AddressMap.hashes) ∧
      (∀ page ∈ pages, ∀ entry ∈ page.entries,
        entry.2 ∈ state.known ∧ entry.1 = sha3 entry.2.val) ∧
      ∀ fuel, steps < fuel →
        state.addressPages entries size fuel start = some pages := by
  induction steps using Nat.strong_induction_on generalizing start with
  | _ steps induction =>
      obtain ⟨next, page, nextKey⟩ := iterated.page lists size start
      cases next with
      | none =>
          refine ⟨[(state.addresses entries start size).1], .last page, ?_, ?_⟩
          · intro other member entry inside
            rw [List.mem_singleton.mp member] at inside
            exact iterated.page_known inside
          · intro fuel enough
            obtain ⟨fuel, rfl⟩ := Nat.exists_eq_succ_of_ne_zero
              (Nat.ne_zero_of_lt enough)
            rw [addressPages_succ, nextKey, Option.getD_none, if_pos rfl]
      | some later =>
          obtain ⟨-, less, fewer⟩ := page.next_rest positive
          obtain ⟨pages, ran, inside, found⟩ :=
            induction (steps - 1) (by omega) later (by omega)
          refine ⟨(state.addresses entries start size).1 :: pages,
            .more page ran, ?_, ?_⟩
          · intro other member entry held
            rcases List.mem_cons.mp member with rfl | after
            · exact iterated.page_known held
            · exact inside other after entry held
          · intro fuel enough
            obtain ⟨fuel, rfl⟩ := Nat.exists_eq_succ_of_ne_zero
              (Nat.ne_zero_of_lt enough)
            rw [addressPages_succ, nextKey, Option.getD_some,
              if_neg (ne_zeroHash less), found fuel (by omega)]
            rfl

end Iterated

/-! ## Complete pages -/

/-- Full pages and a last one, which have the entries of a list in order. -/
structure PagesOf (pages : List AddressMap) (size : Nat)
    (listing : AddressMap) : Prop where
  full : ∀ page ∈ pages.dropLast, page.size = size
  bounded : ∀ page ∈ pages, page.size ≤ size
  whole : pages.flatMap AddressMap.entries = listing.entries

/-- Where a page of accounts of the trie ends and a changed account comes
later, the account right behind the page is a changed one. -/
def Unskipped (state : State) (size : Nat) (listing : AddressMap) : Prop :=
  ∀ front page next back,
    listing.entries = front ++ page ++ next :: back →
    size ∣ front.length → page.length = size →
    (∀ entry ∈ page, entry.2.val ∈ state.trie) →
    (∃ later ∈ back, state.Changed later.2) → state.Changed next.2

section Listed

variable (iterated : state.Iterated entries)
  (injective : Set.InjOn (fun address : Address => sha3 address.val)
    state.known)

include injective

/-- Known addresses are told apart by their hashes. -/
theorem entries_eq {first second : List (H256 × Address)}
    (inFirst : ∀ entry ∈ first,
      entry.2 ∈ state.known ∧ entry.1 = sha3 entry.2.val)
    (inSecond : ∀ entry ∈ second,
      entry.2 ∈ state.known ∧ entry.1 = sha3 entry.2.val)
    (same : first.map Prod.fst = second.map Prod.fst) : first = second := by
  induction first generalizing second with
  | nil => exact (List.map_eq_nil_iff.mp same.symm).symm
  | cons entry first induction =>
      cases second with
      | nil => cases same
      | cons other second =>
          obtain ⟨head, tail⟩ := List.cons.inj same
          obtain ⟨entryKnown, entryHash⟩ := inFirst entry List.mem_cons_self
          obtain ⟨otherKnown, otherHash⟩ := inSecond other List.mem_cons_self
          have address : entry.2 = other.2 :=
            injective entryKnown otherKnown
              (entryHash.symm.trans (head.trans otherHash))
          rw [Prod.ext head address, induction
            (fun entry member => inFirst entry (List.mem_cons_of_mem _ member))
            (fun entry member =>
              inSecond entry (List.mem_cons_of_mem _ member)) tail]

include iterated

/-- The existing accounts can be listed. -/
theorem exists_listing : ∃ listing, state.Lists listing := by
  refine ⟨(AddressMap.empty.insertAll
    ((state.kept entries).map readEntry)).insertAll
      (state.cacheAddresses (zeroHash 32)).entries, ?_⟩
  intro entry
  have sound : ∀ entry ∈ ((AddressMap.empty.insertAll
      ((state.kept entries).map readEntry)).insertAll
        (state.cacheAddresses (zeroHash 32)).entries).entries,
      state.Existing entry.2 ∧ entry.1 = sha3 entry.2.val := by
    intro entry member
    rcases AddressMap.mem_insertAll member with stored | cached
    · rcases AddressMap.mem_insertAll stored with none | stored
      · cases none
      obtain ⟨held, inKept, rfl⟩ := List.mem_map.mp stored
      obtain ⟨listed, kept⟩ := List.mem_filter.mp inKept
      obtain ⟨inTrie, hashed⟩ := (iterated.mem_iff held).mp listed
      have read := FixedHash.ofBytes_val
        (⟨held.2, iterated.addressed held.2 inTrie⟩ : Address)
      rw [read] at kept
      simp only [readEntry, read]
      exact ⟨existing_iff.mpr (.inr ⟨inTrie, by simpa using kept⟩), hashed⟩
    · obtain ⟨hashed, changed⟩ := mem_cacheAddresses cached
      exact ⟨existing_iff.mpr (.inl changed), hashed⟩
  refine ⟨sound entry, ?_⟩
  rintro ⟨existing, hashed⟩
  have present : entry.1 ∈ ((AddressMap.empty.insertAll
      ((state.kept entries).map readEntry)).insertAll
        (state.cacheAddresses (zeroHash 32)).entries).hashes := by
    rw [AddressMap.mem_hashes_insertAll, AddressMap.mem_hashes_insertAll]
    rcases existing_iff.mp existing with changed | ⟨stored, kept⟩
    · right
      have inCache := mem_hashes_cacheAddresses.mpr
        ⟨⟨entry.2, changed, hashed.symm⟩, zeroHash_le entry.1⟩
      exact List.mem_map.mp inCache
    · left; right
      obtain ⟨held, inKept, same⟩ := List.mem_map.mp
        (iterated.mem_stored.mpr ⟨entry.2, stored, kept, hashed.symm⟩)
      exact ⟨readEntry held, List.mem_map_of_mem inKept, same⟩
  obtain ⟨held, member, same⟩ := List.mem_map.mp present
  obtain ⟨heldExisting, heldHashed⟩ := sound held member
  have address : held.2 = entry.2 :=
    injective heldExisting.known existing.known
      (heldHashed.symm.trans (same.trans hashed))
  rw [← Prod.ext same address]
  exact member

variable {listing : AddressMap} (lists : state.Lists listing)

include lists

theorem stored_iff {entry : H256 × Address}
    (member : entry ∈ listing.entries) :
    entry.1 ∈ (iterated.sources lists).stored ↔
      entry.2.val ∈ state.trie := by
  obtain ⟨existing, hashed⟩ := (lists entry).mp member
  constructor
  · intro stored
    obtain ⟨address, inTrie, -, same⟩ := iterated.mem_stored.mp stored
    have equal : address = entry.2 :=
      injective (.inl inTrie) existing.known (same.trans hashed)
    rw [← equal]
    exact inTrie
  · intro inTrie
    exact iterated.mem_stored.mpr
      ⟨entry.2, inTrie, existing.not_deleted, hashed.symm⟩

theorem fresh_iff {entry : H256 × Address}
    (member : entry ∈ listing.entries) :
    entry.1 ∈ (iterated.sources lists).fresh ↔ state.Changed entry.2 := by
  obtain ⟨existing, hashed⟩ := (lists entry).mp member
  constructor
  · rintro ⟨address, changed, same⟩
    have equal : address = entry.2 :=
      injective changed.known existing.known (same.trans hashed)
    rw [← equal]
    exact changed
  · intro changed
    exact ⟨entry.2, changed, hashed.symm⟩

theorem unbroken_iff :
    Paging.Unbroken (iterated.sources lists) size listing.hashes ↔
      state.Unskipped size listing := by
  constructor
  · intro unbroken front page next back split divides length stored fresh
    have members : ∀ entry ∈ front ++ page ++ next :: back,
        entry ∈ listing.entries := fun entry member => split ▸ member
    by_contra unchanged
    apply unbroken (front.map Prod.fst) (page.map Prod.fst) next.1
      (back.map Prod.fst)
    · rw [AddressMap.hashes, split, List.map_append, List.map_append,
        List.map_cons]
    · rw [List.length_map]
      exact divides
    · rw [List.length_map]
      exact length
    refine ⟨?_, ?_, ?_⟩
    · intro hash member
      obtain ⟨entry, inPage, rfl⟩ := List.mem_map.mp member
      exact (stored_iff iterated injective lists
        (members entry (by simp [inPage]))).mpr (stored entry inPage)
    · intro inFresh
      exact unchanged ((fresh_iff iterated injective lists
        (members next (by simp))).mp inFresh)
    · obtain ⟨later, inBack, changed⟩ := fresh
      exact ⟨later.1, List.mem_map_of_mem inBack,
        (fresh_iff iterated injective lists
          (members later (by simp [inBack]))).mpr changed⟩
  · rintro unskipped front page hash back split divides length
      ⟨stored, stale, later, inBack, inFresh⟩
    obtain ⟨start, rest, whole, startHashes, restHashes⟩ :=
      List.map_eq_append_iff.mp split
    obtain ⟨front, page, rfl, rfl, rfl⟩ :=
      List.map_eq_append_iff.mp startHashes
    obtain ⟨next, back, rfl, rfl, rfl⟩ := List.map_eq_cons_iff.mp restHashes
    rw [List.length_map] at divides length
    have members : ∀ entry ∈ front ++ page ++ next :: back,
        entry ∈ listing.entries := fun entry member => whole ▸ member
    obtain ⟨last, inRest, rfl⟩ := List.mem_map.mp inBack
    have changed := (fresh_iff iterated injective lists
      (members last (by simp [inRest]))).mp inFresh
    refine absurd (unskipped front page next back whole divides length ?_
      ⟨last, inRest, changed⟩) ?_
    · intro entry inPage
      exact (stored_iff iterated injective lists
        (members entry (by simp [inPage]))).mp
          (stored entry.1 (List.mem_map_of_mem inPage))
    · intro inCache
      exact stale ((fresh_iff iterated injective lists
        (members next (by simp))).mpr inCache)

/-- The pages have all accounts if and only if none is skipped. -/
theorem pagesOf_iff {pages : List AddressMap}
    (ran : Paging.Pages (iterated.sources lists) size (zeroHash 32)
      (pages.map AddressMap.hashes))
    (inside : ∀ page ∈ pages, ∀ entry ∈ page.entries,
      entry.2 ∈ state.known ∧ entry.1 = sha3 entry.2.val)
    (positive : 0 < size) :
    PagesOf pages size listing ↔ state.Unskipped size listing := by
  have everything : (iterated.sources lists).rest (zeroHash 32) =
      listing.hashes :=
    List.filter_eq_self.mpr
      fun hash _ => decide_eq_true (zeroHash_le hash)
  have hashes : (pages.flatMap AddressMap.entries).map Prod.fst =
      (pages.map AddressMap.hashes).flatten := by
    rw [List.map_flatMap, List.flatMap_def]
    rfl
  have flattened := ran.flatten_eq_iff positive
  rw [everything, unbroken_iff iterated injective lists, ← hashes]
    at flattened
  rw [← flattened]
  constructor
  · intro result
    rw [result.whole]
    rfl
  · intro same
    obtain ⟨full, bounded⟩ := ran.lengths
    have sized : ∀ page : AddressMap, page.hashes.length = page.size :=
      fun page => List.length_map ..
    refine ⟨?_, ?_, ?_⟩
    · intro page member
      rw [← sized]
      apply full
      rw [← List.map_dropLast]
      exact List.mem_map_of_mem member
    · intro page member
      rw [← sized]
      exact bounded _ (List.mem_map_of_mem member)
    · apply entries_eq injective
      · intro entry member
        obtain ⟨page, inPages, held⟩ := List.mem_flatMap.mp member
        exact inside page inPages entry held
      · intro entry member
        obtain ⟨existing, hashed⟩ := (lists entry).mp member
        exact ⟨existing.known, hashed⟩
      · exact same

end Listed

/-- Asking for pages ends, and the pages are full ones and a last one that
have every existing account once, in the order of the hashes, if and only if
no account is skipped behind a page of stored accounts. -/
theorem addressPages_complete_iff (iterated : state.Iterated entries)
    (injective : Set.InjOn (fun address : Address => sha3 address.val)
      state.known)
    (positive : 0 < size) :
    ∃ listing pages, state.Lists listing ∧
      (∃ enough, ∀ fuel, enough ≤ fuel →
        state.addressPages entries size fuel (zeroHash 32) = some pages) ∧
      (PagesOf pages size listing ↔ state.Unskipped size listing) := by
  obtain ⟨listing, lists⟩ := exists_listing iterated injective
  obtain ⟨pages, ran, inside, found⟩ :=
    iterated.run lists positive _ (zeroHash 32) (le_refl _)
  refine ⟨listing, pages, lists, ⟨_, fun fuel enough => found fuel enough⟩, ?_⟩
  exact pagesOf_iff iterated injective lists ran inside positive

end State

/-! ## A sample

Two accounts in the trie and one that was created in the cache, under the
hashes of Keccak-256.  The created one comes last. -/

namespace State

def pagedAddress (last : UInt8) : Address :=
  ⟨List.replicate 19 0 ++ [last], by simp⟩

def pagedFirst : H256 := hashOfNat
  0x1468288056310c82aa4c01a7e12a10f8111a0560e72b700555479031b86c357d

def pagedSecond : H256 := hashOfNat
  0x5b70e80538acdabd6137353b0f9d8d149f4dba91e8be2e7946e409bfdbe685b9

def pagedThird : H256 := hashOfNat
  0xd52688a8f926c816ca1e079067caba944f158e764817b83fc43594370ca9cf62

/-- The hash of the empty string. -/
def pagedEmpty : H256 := hashOfNat
  0xc5d2460186f7233c927e7db2dcc703c0e500b653ca82273b7bfad8045d85a470

def pagedEmptyTrie : H256 := hashOfNat
  0x56e81f171bcc55a6ff8345e692c0f86e5b48e01b996cadc001622fb5e363b421

@[reducible]
def pagedHashing : Hashing where
  sha3 text :=
    if text = (pagedAddress 1).val then pagedFirst
    else if text = (pagedAddress 3).val then pagedSecond
    else if text = (pagedAddress 2).val then pagedThird
    else pagedEmpty
  trieRoot _ := pagedEmptyTrie

def pagedText : Bytes :=
  AccountFields.encoding ⟨0, 1, pagedEmptyTrie, pagedEmpty⟩

def pagedEntries : List (H256 × Bytes) :=
  [(pagedFirst, (pagedAddress 1).val), (pagedSecond, (pagedAddress 3).val)]

section Sample

attribute [local instance] pagedHashing

def pagedState : State where
  db := {}
  trie := Finmap.insert (pagedAddress 1).val pagedText
    (Finmap.singleton (pagedAddress 3).val pagedText)
  cache := AList.insert (pagedAddress 2) (.created 0 100) ∅
  accountStartNonce := 0
  randomness _ := 0

theorem mem_pagedState {key : Bytes} : key ∈ pagedState.trie ↔
    key = (pagedAddress 1).val ∨ key = (pagedAddress 3).val := by
  rw [pagedState, Finmap.mem_insert, Finmap.mem_singleton]

theorem pagedState_iterated : pagedState.Iterated pagedEntries := by
  refine ⟨by decide +kernel, ?_, ?_⟩
  · intro entry
    rw [mem_pagedState]
    constructor
    · intro member
      rcases List.mem_cons.mp member with rfl | member
      · exact ⟨.inl rfl, by decide +kernel⟩
      · rw [List.mem_singleton.mp member]
        exact ⟨.inr rfl, by decide +kernel⟩
    · obtain ⟨hash, key⟩ := entry
      rintro ⟨stored, hashed⟩
      dsimp only at stored hashed
      rw [hashed]
      rcases stored with rfl | rfl
      · decide +kernel
      · decide +kernel
  · intro key member
    rcases mem_pagedState.mp member with rfl | rfl
    · exact (pagedAddress 1).property
    · exact (pagedAddress 3).property

theorem known_pagedState {address : Address}
    (known : address ∈ pagedState.known) :
    address ∈ [pagedAddress 1, pagedAddress 3, pagedAddress 2] := by
  rcases known with stored | cached
  · rcases mem_pagedState.mp stored with same | same
    · simp [Subtype.ext same]
    · simp [Subtype.ext same]
  · rcases (AList.mem_insert _).mp cached with same | none
    · simp [same]
    · exact absurd none (AList.notMem_empty _)

theorem pagedState_injective :
    Set.InjOn (fun address : Address => sha3 address.val)
      pagedState.known := by
  intro first firstKnown second secondKnown same
  have distinct : ∀ first ∈ [pagedAddress 1, pagedAddress 3, pagedAddress 2],
      ∀ second ∈ [pagedAddress 1, pagedAddress 3, pagedAddress 2],
        sha3 first.val = sha3 second.val → first = second := by
    decide +kernel
  exact distinct first (known_pagedState firstKnown) second
    (known_pagedState secondKnown) same

theorem addressPages_complete_iff_sample :
    ∃ listing pages, pagedState.Lists listing ∧
      (∃ enough, ∀ fuel, enough ≤ fuel →
        pagedState.addressPages pagedEntries 3 fuel (zeroHash 32) =
          some pages) ∧
      (PagesOf pages 3 listing ↔ pagedState.Unskipped 3 listing) :=
  addressPages_complete_iff pagedState_iterated pagedState_injective
    (by decide)

/-- Pages of one account: the second account of the trie is not returned. -/
theorem account_skipped_sample :
    pagedState.Existing (pagedAddress 3) ∧
      ∃ pages, pagedState.addressPages pagedEntries 1 2 (zeroHash 32) =
          some pages ∧
        pages.map AddressMap.entries =
          [[(pagedFirst, pagedAddress 1)], [(pagedThird, pagedAddress 2)]] := by
  constructor
  · refine existing_iff.mpr (.inr ⟨mem_pagedState.mpr (.inr rfl), ?_⟩)
    decide +kernel
  · have ran : (pagedState.addressPages pagedEntries 1 2 (zeroHash 32)).map
        (List.map AddressMap.entries) =
        some [[(pagedFirst, pagedAddress 1)],
          [(pagedThird, pagedAddress 2)]] := by
      decide +kernel
    exact Option.map_eq_some_iff.mp ran

end Sample

end State

end Aecmio
