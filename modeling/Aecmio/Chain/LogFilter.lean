import Aecmio.Chain.Blooms

/-!
# Log filters

A filter selects logs by their address and by alternatives for each of four
topics.  A query looks for the blocks whose slots contain one of the blooms
that `bloomPossibilities` gives.
-/

namespace Aecmio

theorem byte_and_or_iff {byte first second : UInt8} :
    byte &&& (first ||| second) = first ||| second ↔
      byte &&& first = first ∧ byte &&& second = second := by
  simp only [← UInt8.toBitVec_inj]
  constructor
  · intro same
    constructor <;>
    · ext index inside
      have bit := congrArg (fun vector => vector[index]) same
      simp at bit ⊢
      grind
  · rintro ⟨left, right⟩
    ext index inside
    have leftBit := congrArg (fun vector => vector[index]) left
    have rightBit := congrArg (fun vector => vector[index]) right
    simp at leftBit rightBit ⊢
    grind

namespace FixedHash

variable {size : Nat} {first second third : FixedHash size}

theorem contains_union_iff : third.contains (first.union second) ↔
    third.contains first ∧ third.contains second := by
  constructor
  · intro whole
    exact ⟨contains_trans whole (contains_union_left (contains_refl first)),
      contains_trans whole (contains_union_right (contains_refl second))⟩
  · rintro ⟨inFirst, inSecond⟩
    rw [contains_iff] at inFirst inSecond ⊢
    intro index inside
    rw [getD_union first second inside]
    exact byte_and_or_iff.mpr ⟨inFirst index inside, inSecond index inside⟩

theorem contains_foldl_union_iff {α : Type} (part : α → FixedHash size)
    (list : List α) (start : FixedHash size) :
    third.contains
        (list.foldl (fun bloom item => bloom.union (part item)) start) ↔
      third.contains start ∧ ∀ item ∈ list, third.contains (part item) := by
  induction list generalizing start with
  | nil => simp
  | cons item rest induction =>
      rw [List.foldl_cons, induction, contains_union_iff,
        List.forall_mem_cons, and_assoc]

theorem contains_zeroHash (hash : FixedHash size) :
    hash.contains (zeroHash size) := by
  rw [contains_iff]
  intro index inside
  simp [zeroHash, inside]

/-- `shiftBloom<3>`. -/
def shiftBloom (bloom : LogBloom) (hash : H256) : LogBloom :=
  bloom.union (bloomPart hash)

/-- `containsBloom<3>`. -/
def containsBloom (bloom : LogBloom) (hash : H256) : Bool :=
  bloom.contains (bloomPart hash)

end FixedHash

open FixedHash

/-- The sets of addresses and topics, in the order in which they are
iterated. -/
structure LogFilter where
  addresses : List Address
  topics : Fin 4 → List H256

namespace LogFilter

/-- The array of topics, as a range loop goes through it. -/
def topicSets (filter : LogFilter) : List (List H256) :=
  (List.finRange 4).map filter.topics

def isRangeFilter (filter : LogFilter) : Bool :=
  filter.addresses.isEmpty && filter.topicSets.all List.isEmpty

variable [Hashing]

/-- `matches(LogBloom)`. -/
def matchesBloom (filter : LogFilter) (bloom : LogBloom) : Bool :=
  (filter.addresses.isEmpty ||
    filter.addresses.any fun addr => bloom.containsBloom (sha3 addr.val)) &&
  filter.topicSets.all fun topics => topics.isEmpty ||
    topics.any fun topic => bloom.containsBloom (sha3 topic.val)

/-- The bloom of all the alternatives for a topic, over another one. -/
def alternatives (start : LogBloom) (topics : List H256) : LogBloom :=
  topics.foldl (fun bloom topic => bloom.shiftBloom (sha3 topic.val)) start

def bloomPossibilities (filter : LogFilter) : List LogBloom :=
  let nonempty := filter.topicSets.filter fun topics => !topics.isEmpty
  let both := filter.addresses.flatMap fun addr => nonempty.map
    (alternatives (shiftBloom (zeroHash 256) (sha3 addr.val)))
  let withAddresses := if both.isEmpty
    then filter.addresses.map fun addr =>
      shiftBloom (zeroHash 256) (sha3 addr.val)
    else both
  if filter.addresses.isEmpty
  then withAddresses ++ nonempty.map (alternatives (zeroHash 256))
  else withAddresses

/-- The blocks of the chain that `ClientBase::logs` looks into. -/
def matchingBlocks (filter : LogFilter) (store : BlockChain.Store)
    (earliest latest : Nat) : List Nat :=
  if filter.isRangeFilter
  then List.range' earliest (latest + 1 - earliest)
  else filter.bloomPossibilities.flatMap fun bloom =>
    store.withBlockBloom bloom earliest latest

/-- A log has one of the addresses, if there are any, and at every position
with alternatives one of these as its topic. -/
def Selects (filter : LogFilter) (entry : LogEntry) : Prop :=
  (filter.addresses ≠ [] → entry.address ∈ filter.addresses) ∧
    ∀ index : Fin 4, filter.topics index ≠ [] →
      ∃ topic ∈ filter.topics index, entry.topics[index.val]? = some topic

instance (filter : LogFilter) (entry : LogEntry) :
    Decidable (filter.Selects entry) :=
  inferInstanceAs (Decidable (_ ∧ _))

/-- The bloom has the bits of all the alternatives. -/
def HasAll (bloom : LogBloom) (topics : List H256) : Prop :=
  ∀ topic ∈ topics, bloom.containsBloom (sha3 topic.val)

instance (bloom : LogBloom) (topics : List H256) :
    Decidable (HasAll bloom topics) :=
  inferInstanceAs (Decidable (∀ _ ∈ _, _))

variable {filter : LogFilter} {bloom : LogBloom} {entry : LogEntry}

/-! ## Blooms of logs -/

theorem contains_bloom_iff (entry : LogEntry) :
    bloom.contains entry.bloom ↔
      bloom.containsBloom (sha3 entry.address.val) ∧
        HasAll bloom entry.topics :=
  contains_foldl_union_iff _ _ _

theorem contains_logsBloom {logs : List LogEntry} (member : entry ∈ logs) :
    (logsBloom logs).contains entry.bloom :=
  ((contains_foldl_union_iff LogEntry.bloom logs (zeroHash 256)).mp
    (contains_refl _)).2 entry member

/-- The bloom of a block matches the filter, if one of its logs does. -/
theorem matchesBloom_of_selects (selects : filter.Selects entry)
    (contains : bloom.contains entry.bloom) : filter.matchesBloom bloom := by
  obtain ⟨addressIn, topicsIn⟩ := (contains_bloom_iff entry).mp contains
  rw [matchesBloom, Bool.and_eq_true]
  constructor
  · by_cases none : filter.addresses = []
    · simp [none]
    · rw [Bool.or_eq_true, List.any_eq_true]
      exact .inr ⟨entry.address, selects.1 none, addressIn⟩
  · rw [List.all_eq_true]
    intro topics member
    obtain ⟨index, -, rfl⟩ := List.mem_map.mp member
    by_cases none : filter.topics index = []
    · simp [none]
    · obtain ⟨topic, alternative, found⟩ := selects.2 index none
      rw [Bool.or_eq_true, List.any_eq_true]
      exact .inr ⟨topic, alternative,
        topicsIn topic (List.mem_of_getElem? found)⟩

/-! ## Possibilities -/

theorem contains_alternatives_iff (start : LogBloom) (topics : List H256) :
    bloom.contains (alternatives start topics) ↔
      bloom.contains start ∧ HasAll bloom topics :=
  contains_foldl_union_iff _ _ _

theorem contains_address_iff (addr : Address) :
    bloom.contains (shiftBloom (zeroHash 256) (sha3 addr.val)) ↔
      bloom.containsBloom (sha3 addr.val) := by
  rw [shiftBloom, contains_union_iff]
  exact and_iff_right (contains_zeroHash bloom)

omit [Hashing] in
theorem mem_nonempty {topics : List H256} :
    topics ∈ filter.topicSets.filter (fun topics => !topics.isEmpty) ↔
      ∃ index, filter.topics index ≠ [] ∧ filter.topics index = topics := by
  rw [List.mem_filter, topicSets, List.mem_map]
  constructor
  · rintro ⟨⟨index, -, rfl⟩, some⟩
    exact ⟨index, by simpa using some, rfl⟩
  · rintro ⟨index, some, rfl⟩
    exact ⟨⟨index, List.mem_finRange index, rfl⟩, by simpa using some⟩

/-- A position has alternatives and the bloom has the bits of all of them, or
there is no such position. -/
def Covered (filter : LogFilter) (bloom : LogBloom) : Prop :=
  (∀ index, filter.topics index = []) ∨
    ∃ index, filter.topics index ≠ [] ∧ HasAll bloom (filter.topics index)

instance (filter : LogFilter) (bloom : LogBloom) :
    Decidable (filter.Covered bloom) :=
  inferInstanceAs (Decidable (_ ∨ _))

theorem exists_over_iff (start : LogBloom) :
    (∃ possibility ∈ (filter.topicSets.filter
        fun topics => !topics.isEmpty).map (alternatives start),
      bloom.contains possibility) ↔
    bloom.contains start ∧
      ∃ index, filter.topics index ≠ [] ∧
        HasAll bloom (filter.topics index) := by
  constructor
  · rintro ⟨possibility, member, contains⟩
    obtain ⟨topics, nonempty, rfl⟩ := List.mem_map.mp member
    obtain ⟨index, some, rfl⟩ := mem_nonempty.mp nonempty
    obtain ⟨above, all⟩ := (contains_alternatives_iff _ _).mp contains
    exact ⟨above, index, some, all⟩
  · rintro ⟨above, index, some, all⟩
    exact ⟨_, List.mem_map.mpr ⟨_, mem_nonempty.mpr ⟨index, some, rfl⟩, rfl⟩,
      (contains_alternatives_iff _ _).mpr ⟨above, all⟩⟩

omit [Hashing] in
theorem nonempty_eq_nil_iff :
    filter.topicSets.filter (fun topics => !topics.isEmpty) = [] ↔
      ∀ index, filter.topics index = [] := by
  rw [List.eq_nil_iff_forall_not_mem]
  constructor
  · intro none index
    by_contra some
    exact none _ (mem_nonempty.mpr ⟨index, some, rfl⟩)
  · intro empty topics member
    obtain ⟨index, some, -⟩ := mem_nonempty.mp member
    exact some (empty index)

/-- A bloom contains a possibility if and only if it has an address of the
filter and a position is covered. -/
theorem exists_possibility_iff (notRange : ¬ filter.isRangeFilter) :
    (∃ possibility ∈ filter.bloomPossibilities,
        bloom.contains possibility) ↔
      (filter.addresses ≠ [] → ∃ addr ∈ filter.addresses,
        bloom.containsBloom (sha3 addr.val)) ∧ filter.Covered bloom := by
  have someTopic (none : filter.addresses = []) :
      ¬ ∀ index, filter.topics index = [] := by
    intro empty
    apply notRange
    simp [isRangeFilter, none, topicSets, empty]
  rw [bloomPossibilities, Covered]
  by_cases none : filter.addresses = []
  · simp only [none, List.flatMap_nil, List.map_nil, List.isEmpty_nil, if_true,
      List.nil_append, exists_over_iff, contains_zeroHash, true_and]
    simp [someTopic none]
  · have notEmpty : ¬ filter.addresses.isEmpty := by simpa using none
    rw [if_neg notEmpty]
    by_cases empty : ∀ index, filter.topics index = []
    · simp only [nonempty_eq_nil_iff.mpr empty, List.map_nil,
        List.flatMap_eq_nil_iff.mpr fun _ _ => rfl, List.isEmpty_nil, if_true]
      constructor
      · rintro ⟨possibility, member, contains⟩
        obtain ⟨addr, listed, rfl⟩ := List.mem_map.mp member
        exact ⟨fun _ => ⟨addr, listed, (contains_address_iff addr).mp contains⟩,
          .inl empty⟩
      · rintro ⟨someAddress, -⟩
        obtain ⟨addr, listed, contains⟩ := someAddress none
        exact ⟨_, List.mem_map.mpr ⟨addr, listed, rfl⟩,
          (contains_address_iff addr).mpr contains⟩
    · have bothSome : filter.addresses.flatMap (fun addr =>
          (filter.topicSets.filter fun topics => !topics.isEmpty).map
            (alternatives (shiftBloom (zeroHash 256) (sha3 addr.val)))) ≠
              [] := by
        intro nil
        obtain ⟨addr, listed⟩ := List.exists_mem_of_ne_nil _ none
        exact empty (nonempty_eq_nil_iff.mp
          (List.map_eq_nil_iff.mp (List.flatMap_eq_nil_iff.mp nil addr listed)))
      rw [if_neg (by simpa using bothSome), or_iff_right empty]
      constructor
      · rintro ⟨possibility, member, contains⟩
        obtain ⟨addr, listed, inRow⟩ := List.mem_flatMap.mp member
        obtain ⟨above, covered⟩ :=
          (exists_over_iff _).mp ⟨possibility, inRow, contains⟩
        exact ⟨fun _ => ⟨addr, listed, (contains_address_iff addr).mp above⟩,
          covered⟩
      · rintro ⟨someAddress, covered⟩
        obtain ⟨addr, listed, contains⟩ := someAddress none
        obtain ⟨possibility, inRow, all⟩ := (exists_over_iff _).mpr
          ⟨(contains_address_iff addr).mpr contains, covered⟩
        exact ⟨possibility, List.mem_flatMap.mpr ⟨addr, listed, inRow⟩, all⟩

/-- One alternative is enough, if it is the only one. -/
theorem covered_of_single (selects : filter.Selects entry)
    (contains : bloom.contains entry.bloom) {index : Fin 4} {topic : H256}
    (single : filter.topics index = [topic]) : filter.Covered bloom := by
  have some : filter.topics index ≠ [] := by
    rw [single]
    exact List.cons_ne_nil _ _
  refine .inr ⟨index, some, ?_⟩
  obtain ⟨other, alternative, found⟩ := selects.2 index some
  intro listed member
  rw [single, List.mem_singleton] at alternative member
  rw [member, ← alternative]
  exact ((contains_bloom_iff entry).mp contains).2 other
    (List.mem_of_getElem? found)

/-- A block with a selected log is looked into, if it is in the range, its
slots contain its bloom and a position is covered. -/
theorem mem_matchingBlocks {store : BlockChain.Store}
    (notRange : ¬ filter.isRangeFilter) (selects : filter.Selects entry)
    (contains : bloom.contains entry.bloom) (covered : filter.Covered bloom)
    {earliest latest number : Nat} (inRange : number < BlockChain.bloomRange)
    (fromEarliest : earliest ≤ number) (upToLatest : number ≤ latest)
    (small : latest + 255 < 2 ^ 32)
    (slots : BlockChain.Covers store number bloom) :
    number ∈ filter.matchingBlocks store earliest latest := by
  have addressIn := ((contains_bloom_iff entry).mp contains).1
  obtain ⟨possibility, member, possible⟩ :=
    (exists_possibility_iff notRange).mpr
      ⟨fun some => ⟨entry.address, selects.1 some, addressIn⟩, covered⟩
  rw [matchingBlocks, if_neg notRange]
  exact List.mem_flatMap.mpr ⟨possibility, member,
    BlockChain.mem_withBlockBloom inRange fromEarliest upToLatest small
      (slots.mono possible)⟩

end LogFilter

/-- The blooms of a block with a selected log contain one of the possibilities
if and only if no position has alternatives, or the blooms have all bits of all
the alternatives for one position. -/
theorem LogFilter.bloomPossibilities_iff [Hashing] {filter : LogFilter}
    (notRange : ¬ filter.isRangeFilter) {receipts : List TransactionReceipt}
    {entry : LogEntry}
    (logged : entry ∈ receipts.flatMap TransactionReceipt.log)
    (selects : filter.Selects entry) :
    (∃ possibility ∈ filter.bloomPossibilities,
      (logsBloom (receipts.flatMap TransactionReceipt.log)).contains
        possibility) ↔
    filter.Covered (logsBloom (receipts.flatMap TransactionReceipt.log)) := by
  rw [LogFilter.exists_possibility_iff notRange]
  apply and_iff_right
  intro some
  have addressIn := ((LogFilter.contains_bloom_iff entry).mp
    (LogFilter.contains_logsBloom logged)).1
  exact ⟨entry.address, selects.1 some, addressIn⟩

section Sample

/-- Two topics and an address with their Keccak hashes. -/
def filterSampleHashing : Hashing where
  sha3 content :=
    if content = (hashOfNat 1).val then hashOfNat
      0xb10e2d527612073b26eecdfd717e6a320cf44b4afac2b0732d9fcbe2b7fa0cf6
    else if content = (hashOfNat 2).val then hashOfNat
      0x405787fa12a823e0f2b7631cc41b3ba8828b3321ca811111fa75cd3aa3bb5ace
    else hashOfNat
      0x8c3ab0970b73895b8c9959bae685c3a19f45eb5ad89d42b52a340ec4ac204d19
  trieRoot _ := hashOfNat 0

attribute [local instance] filterSampleHashing

def addressSample : Address := ⟨List.replicate 19 0 ++ [7], rfl⟩

/-- A log with one topic, in the only receipt of a block. -/
def entrySample : LogEntry := ⟨addressSample, [hashOfNat 1], []⟩

def receiptSample : TransactionReceipt :=
  .ofLogs (.statusCode 1) 21000 [entrySample]

/-- Only the topic of the log. -/
def topicSample : LogFilter :=
  ⟨[addressSample], fun index => if index = 0 then [hashOfNat 1] else []⟩

theorem LogFilter.bloomPossibilities_iff_sample :
    ∃ possibility ∈ topicSample.bloomPossibilities,
      (logsBloom ([receiptSample].flatMap TransactionReceipt.log)).contains
        possibility :=
  (@LogFilter.bloomPossibilities_iff _ topicSample (by decide +kernel)
    [receiptSample] entrySample (by decide +kernel) (by decide +kernel)).mpr
    (by decide +kernel)

/-- The topic of the log or another one. -/
def eitherSample : LogFilter :=
  ⟨[], fun index => if index = 0 then [hashOfNat 1, hashOfNat 2] else []⟩

/-- The log is selected and the block is not found. -/
theorem LogFilter.possibility_missing_sample :
    ¬ eitherSample.isRangeFilter ∧ eitherSample.Selects entrySample ∧
      ¬ ∃ possibility ∈ eitherSample.bloomPossibilities,
        (logsBloom ([receiptSample].flatMap TransactionReceipt.log)).contains
          possibility := by
  decide +kernel

end Sample

end Aecmio
