import Aecmio.Chain.Canon

/-!
# Imports, rewinds and queries

A run of imports, rewinds and queries keeps the number index on the line of
the head if no query above the head finds an entry that an earlier, longer
chain has left in the database.  The head is the block with the greatest total
difficulty, in whatever order the blocks came.
-/

namespace Aecmio

namespace BlockChain

open Ancestry

variable {store store' : Store}

/-! ## Reading the index -/

theorem numberHash_snd (store : Store) (number : Nat) :
    (store.numberHash number).2 = { store with
      blockHashes := if number = 0 then store.blockHashes
        else (store.blockHashes.query number).2 } := by
  unfold Store.numberHash
  by_cases zero : number = 0
  · rw [if_pos zero, if_pos zero]
  · rw [if_neg zero, if_neg zero]

/-- A store whose head is set to what its own index has at a number. -/
def movedTo (newHead : Nat) (store : Store) : Store :=
  { (store.numberHash newHead).2 with
    lastBlockHash := (store.numberHash newHead).1
    lastBlockNumber := newHead }

structure Canonical (store : Store) : Prop where
  rooted : Rooted store
  indexed : Indexed store

/-- Blocks and head are as before. -/
theorem Rooted.congr (rooted : Rooted store)
    (genesis : store'.genesis = store.genesis)
    (blocks : store'.blocks = store.blocks)
    (details : store'.details = store.details)
    (head : ∃ details, store'.details store'.lastBlockHash = some details ∧
      details.number = store'.lastBlockNumber) : Rooted store' := by
  refine ⟨?_, ?_, ?_, ?_, head⟩
  · rw [genesis, details]
    exact rooted.genesis
  · rw [details]
    exact rooted.nonzero
  · rw [details]
    exact rooted.number_lt
  · intro hash found
    rw [details, genesis]
    intro here notGenesis
    obtain ⟨parent, block⟩ := rooted.linked hash found here notGenesis
    exact ⟨by rw [details]; exact parent, by rw [blocks]; exact block⟩

theorem parent_congr (details : store'.details = store.details) :
    store'.parent = store.parent := by
  funext hash
  rw [Store.parent, Store.detailsOf, details]
  rfl

/-- The index of a store whose head is given. -/
theorem Indexed.of_eq {last : Nat} {ancestor : Nat → H256}
    {extras : Extras Nat H256} (number : store.lastBlockNumber = last)
    (ancestors : ∀ height ≤ last, store.ancestorAt height = ancestor height)
    (blockHashes : store.blockHashes = extras)
    (stored : ∀ height, 0 < height → height ≤ last →
      extras.stored height = some (ancestor height))
    (cached : ∀ height, height ≤ last → extras.cached height = none ∨
      extras.cached height = some (ancestor height))
    (above : ∀ height, last < height → extras.cached height = none) :
    Indexed store := by
  subst number blockHashes
  refine ⟨?_, ?_, above⟩
  · intro height positive atMost
    rw [ancestors height atMost]
    exact stored height positive atMost
  · intro height atMost
    rw [ancestors height atMost]
    exact cached height atMost

namespace Canonical

variable {header : Header} {totalDifficulty : U256}

theorem start {genesis : Header} (nonzero : genesis.hash ≠ zeroHash 32)
    (difficulty : U256) (tieBreakingGas : Bool) :
    Canonical (Store.start genesis difficulty tieBreakingGas) := by
  have only : ∀ hash details,
      (Store.start genesis difficulty tieBreakingGas).details hash =
        some details → hash = genesis.hash ∧
          details = ⟨0, difficulty, zeroHash 32⟩ := by
    intro hash details found
    by_cases same : hash = genesis.hash
    · simp only [Store.start, same, Function.update_self] at found
      exact ⟨same, (Option.some.inj found).symm⟩
    · simp only [Store.start, Function.update_of_ne same] at found
      cases found
  have here : (Store.start genesis difficulty tieBreakingGas).details
      genesis.hash = some ⟨0, difficulty, zeroHash 32⟩ := by
    simp only [Store.start, Function.update_self]
  refine ⟨⟨⟨_, here, rfl⟩, ?_, ?_, ?_, ⟨_, here, rfl⟩⟩, ⟨?_, ?_, ?_⟩⟩
  · intro hash details found
    rw [(only hash details found).1]
    exact nonzero
  · intro hash details found
    rw [(only hash details found).2]
    exact Nat.zero_lt_of_lt (show 1 < c_invalidNumber by decide)
  · intro hash details found notGenesis
    exact absurd (only hash details found).1 notGenesis
  · intro number positive atMost
    exact absurd positive (Nat.not_lt.mpr atMost)
  · exact fun _ _ => .inl rfl
  · exact fun _ _ => rfl

/-- An import returns. -/
theorem insert [Hashing] (canonical : Canonical store)
    (importable : Importable store header totalDifficulty) :
    ∃ route next,
      store.insertBlockAndExtras header totalDifficulty =
        some (route, next) ∧
      Canonical next ∧ Puts header totalDifficulty store next := by
  have rooted := canonical.rooted
  rcases insert_cases rooted importable with
    ⟨-, inserted⟩ | ⟨-, up, down, meeting, inserted⟩
  · refine ⟨_, _, inserted, ⟨?_, canonical.indexed.put rooted importable⟩,
      importable.puts⟩
    refine importable.puts.rooted importable rooted ?_
    obtain ⟨details, found, number⟩ := rooted.head
    refine ⟨details, ?_, number⟩
    rw [← found]
    exact importable.puts.details_known importable rooted.head_known
  · have puts := importable.puts_adopt up down
    refine ⟨_, _, inserted,
      ⟨?_, canonical.indexed.adopt rooted importable meeting⟩, puts⟩
    exact puts.rooted importable rooted ⟨_, puts.details_new, rfl⟩

/-- A query that finds nothing above the head. -/
theorem numberHash (canonical : Canonical store) {number : Nat}
    (nothing : store.lastBlockNumber < number →
      store.blockHashes.stored number = none) :
    Canonical (store.numberHash number).2 := by
  have indexed := canonical.indexed
  rw [numberHash_snd]
  refine ⟨canonical.rooted.congr rfl rfl rfl canonical.rooted.head, ?_⟩
  by_cases zero : number = 0
  · rw [if_pos zero]
    exact indexed
  · rw [if_neg zero]
    have read : ∀ height, height = number →
        height ≤ store.lastBlockNumber →
        store.blockHashes.read number = some (store.ancestorAt height) := by
      intro height same atMost
      rw [Extras.read, ← same]
      have stored := indexed.stored height (by omega) atMost
      rcases indexed.cached height atMost with none | some_
      · rw [none, stored]
        rfl
      · rw [some_]
        rfl
    refine ⟨?_, ?_, ?_⟩
    · intro height positive atMost
      rw [Extras.query_stored]
      exact indexed.stored height positive atMost
    · intro height atMost
      rw [Extras.query_cached]
      by_cases same : height = number
      · rw [if_pos same]
        exact .inr (read height same atMost)
      · rw [if_neg same]
        exact indexed.cached height atMost
    · intro height higher
      have absent := indexed.above height higher
      rw [Extras.query_cached]
      by_cases same : height = number
      · rw [if_pos same, Extras.read, ← same, absent]
        rw [same] at higher ⊢
        exact nothing higher
      · rw [if_neg same]
        exact absent

/-- The caches for a rewind are cleared. -/
theorem cleared_eq {newHead : Nat} (low : newHead < store.lastBlockNumber) :
    store.clearCachesDuringChainReversion (newHead + 1) =
      store.reverted (store.lastBlockNumber - newHead) := by
  have first : store.lastBlockNumber - (store.lastBlockNumber - newHead) =
      newHead := by omega
  rw [Store.reverted, if_neg (by omega), first]

theorem rewind_low {newHead : Nat} (low : newHead < store.lastBlockNumber) :
    store.rewind newHead = movedTo newHead
      (store.reverted (store.lastBlockNumber - newHead)) := by
  unfold Store.rewind
  rw [if_neg (Nat.not_le.mpr low), cleared_eq low]
  generalize store.reverted (store.lastBlockNumber - newHead) = middle
  rfl

/-- What is found at the new head is its hash. -/
theorem read_reverted (canonical : Canonical store) {newHead : Nat}
    (low : newHead < store.lastBlockNumber) (positive : newHead ≠ 0) :
    (store.reverted
      (store.lastBlockNumber - newHead)).blockHashes.read newHead =
        some (store.ancestorAt newHead) := by
  have indexed := canonical.indexed
  obtain ⟨stored, cached, -⟩ := indexed.reverted canonical.rooted
    (Nat.sub_le store.lastBlockNumber newHead)
  have inDatabase := indexed.stored newHead (Nat.pos_of_ne_zero positive)
    (by omega)
  rw [Extras.read, cached newHead (by omega), stored, inDatabase]
  rcases indexed.cached newHead (by omega) with absent | present
  · rw [absent]
    rfl
  · rw [present]
    rfl

theorem numberHash_reverted (canonical : Canonical store) {newHead : Nat}
    (low : newHead < store.lastBlockNumber) :
    (Store.numberHash newHead
      (store.reverted (store.lastBlockNumber - newHead))).1 =
        store.ancestorAt newHead := by
  have read := canonical.read_reverted low
  have same := sameBlocks_reverted store (store.lastBlockNumber - newHead)
  generalize store.reverted (store.lastBlockNumber - newHead) = middle
    at read same ⊢
  unfold Store.numberHash
  by_cases zero : newHead = 0
  · have genesis : middle.genesis = store.genesis := by rw [same]
    rw [if_pos zero, zero, canonical.rooted.ancestorAt_zero, genesis]
  · rw [if_neg zero]
    show (middle.blockHashes.query newHead).1.getD _ = _
    rw [Extras.query_fst, read zero]
    rfl

/-- The store after a rewind. -/
theorem rewind_eq (canonical : Canonical store) {newHead : Nat}
    (low : newHead < store.lastBlockNumber) :
    store.rewind newHead = { store with
      blockHashes := (store.rewind newHead).blockHashes
      transactionAddresses := (store.rewind newHead).transactionAddresses
      blocksBlooms :=
        (store.reverted (store.lastBlockNumber - newHead)).blocksBlooms
      lastBlockHash := store.ancestorAt newHead
      lastBlockNumber := newHead } := by
  have hash := canonical.numberHash_reverted low
  have same := sameBlocks_reverted store (store.lastBlockNumber - newHead)
  rw [rewind_low low]
  generalize store.reverted (store.lastBlockNumber - newHead) = middle
    at hash same ⊢
  rw [movedTo, hash, numberHash_snd]
  rw [same]

/-- The head goes back along its line. -/
theorem rewind (canonical : Canonical store) (newHead : Nat) :
    Canonical (store.rewind newHead) := by
  have rooted := canonical.rooted
  have indexed := canonical.indexed
  by_cases none : store.lastBlockNumber ≤ newHead
  · rw [Store.rewind, if_pos none]
    exact canonical
  have lower : newHead < store.lastBlockNumber := Nat.lt_of_not_le none
  have few := Nat.sub_le store.lastBlockNumber newHead
  have hash := canonical.numberHash_reverted lower
  have read := canonical.read_reverted lower
  obtain ⟨stored, low, high⟩ := indexed.reverted rooted few
  have same := sameBlocks_reverted store (store.lastBlockNumber - newHead)
  rw [rewind_low lower]
  generalize store.reverted (store.lastBlockNumber - newHead) = middle
    at hash read stored low high same ⊢
  have enough : store.lastBlockNumber - newHead ≤
      store.number store.lastBlockHash := by
    rw [rooted.number_head]
    exact Nat.sub_le _ _
  have known := rooted.tree.iterate_mem rooted.head_known enough
  have heights := rooted.tree.height_iterate rooted.head_known enough
  obtain ⟨details, found⟩ := Option.isSome_iff_exists.mp known
  have number : details.number = newHead := by
    rw [Store.number_eq found, rooted.number_head] at heights
    omega
  rw [movedTo, hash, numberHash_snd]
  have ancestors : ∀ height ≤ newHead,
      middle.parent^[newHead - height] (store.ancestorAt newHead) =
        store.ancestorAt height := by
    intro height atMost
    have parents : middle.parent = store.parent :=
      parent_congr (by rw [same])
    rw [parents, Store.ancestorAt, ← Function.iterate_add_apply,
      Store.ancestorAt]
    congr 1
    omega
  refine ⟨rooted.congr (by rw [same]) (by rw [same]) (by rw [same])
    ⟨details, by rw [same]; exact found, number⟩,
    @Indexed.of_eq _ newHead store.ancestorAt _ rfl ancestors rfl ?_ ?_ ?_⟩
  · intro height positive atMost
    rw [if_neg (by omega), Extras.query_stored, stored]
    exact indexed.stored height positive (by omega)
  · intro height atMost
    have before := indexed.cached height (by omega)
    rw [← low height (by omega)] at before
    by_cases zero : newHead = 0
    · rw [if_pos zero]
      exact before
    · rw [if_neg zero, Extras.query_cached]
      by_cases here : height = newHead
      · rw [if_pos here, read zero, here]
        exact .inr rfl
      · rw [if_neg here]
        exact before
  · intro height higher
    have absent := high height (by omega)
    by_cases zero : newHead = 0
    · rw [if_pos zero]
      exact absent
    · rw [if_neg zero, Extras.query_cached, if_neg (Nat.ne_of_gt higher)]
      exact absent

end Canonical

/-! ## Runs -/

/-- Every step of a run meets a condition on the store before it. -/
def Throughout [Hashing] (condition : Store → Step → Prop) :
    Store → List Step → Prop
  | _, [] => True
  | store, step :: rest => condition store step ∧
      ∀ next, store.step step = some next → Throughout condition next rest

instance decidableThroughout [Hashing] (condition : Store → Step → Prop)
    [∀ store step, Decidable (condition store step)] :
    ∀ store steps, Decidable (Throughout condition store steps)
  | _, [] => .isTrue trivial
  | store, step :: rest =>
      have : Decidable (∀ next, store.step step = some next →
          Throughout condition next rest) :=
        match store.step step with
        | none => .isTrue nofun
        | some next =>
            have := decidableThroughout condition next rest
            decidable_of_iff (Throughout condition next rest)
              ⟨fun here _ same => Option.some.inj same ▸ here,
                fun all => all next rfl⟩
      inferInstanceAs (Decidable (_ ∧ _))

/-- A run returns and keeps what each of its steps keeps. -/
theorem run_keeps [Hashing] {condition : Store → Step → Prop}
    {kept : Store → Prop}
    (keeps : ∀ store step, condition store step → kept store →
      ∃ next, store.step step = some next ∧ kept next)
    {steps : List Step} (throughout : Throughout condition store steps)
    (initially : kept store) : ∃ last, store.run steps = some last ∧
      kept last := by
  induction steps generalizing store with
  | nil => exact ⟨store, rfl, initially⟩
  | cons step rest induction =>
      obtain ⟨next, taken, keptNext⟩ := keeps store step throughout.1 initially
      obtain ⟨last, run, keptLast⟩ := induction (throughout.2 next taken)
        keptNext
      refine ⟨last, ?_, keptLast⟩
      rw [Store.run, List.foldlM_cons, taken]
      exact run

/-- Blocks are imported after their parents, and a query above the head finds
nothing in the database. -/
def Answerable (store : Store) : Step → Prop
  | .insertBlockAndExtras header totalDifficulty =>
      Importable store header totalDifficulty
  | .numberHash number => store.lastBlockNumber < number →
      store.blockHashes.stored number = none
  | _ => True

instance (store : Store) (step : Step) : Decidable (Answerable store step) :=
  match step with
  | .insertBlockAndExtras header totalDifficulty =>
      inferInstanceAs (Decidable (Importable store header totalDifficulty))
  | .numberHash _ => inferInstanceAs (Decidable (_ → _))
  | .rewind _ => .isTrue trivial
  | .garbageCollect _ _ => .isTrue trivial

theorem Canonical.step [Hashing] (canonical : Canonical store) {step : Step}
    (answerable : Answerable store step) :
    ∃ next, store.step step = some next ∧ Canonical next := by
  cases step with
  | insertBlockAndExtras header totalDifficulty =>
      obtain ⟨route, next, inserted, kept, -⟩ := canonical.insert answerable
      refine ⟨next, ?_, kept⟩
      rw [Store.step, inserted]
      rfl
  | rewind newHead => exact ⟨_, rfl, canonical.rewind newHead⟩
  | garbageCollect blooms transactions =>
      refine ⟨_, rfl, canonical.rooted.congr rfl rfl rfl
        canonical.rooted.head, ?_⟩
      exact canonical.indexed.congr rfl rfl fun _ _ => rfl
  | numberHash number => exact ⟨_, rfl, canonical.numberHash answerable⟩

/-- The hash of the author of the blocks below. -/
def chainSampleHashing : Hashing where
  sha3 _ := hashOfNat
    0x5380c7b7ae81a58eb98d9c78de4a1fd7fd9535fc953ed2be602daaa41767312a
  trieRoot _ := zeroHash 32

def chainSampleHeader (hash parentHash number : Nat) : Header where
  hash := hashOfNat hash
  parentHash := hashOfNat parentHash
  number

def chainSample : Store := Store.start (chainSampleHeader 100 0 0) 1 false

/-- The hash of every number up to that of the head is that of the ancestor of
the head with this number. -/
theorem run_numberHash [Hashing] {genesis : Header}
    (nonzero : genesis.hash ≠ zeroHash 32) (difficulty : U256)
    (tieBreakingGas : Bool) (steps : List Step)
    (answerable : Throughout Answerable
      (Store.start genesis difficulty tieBreakingGas) steps) :
    ∃ store, (Store.start genesis difficulty tieBreakingGas).run steps =
        some store ∧
      ∀ number ≤ store.lastBlockNumber,
        (store.numberHash number).1 = store.ancestorAt number := by
  obtain ⟨store, run, canonical⟩ :=
    run_keeps (fun _ _ answerable canonical => canonical.step answerable)
      answerable (Canonical.start nonzero difficulty tieBreakingGas)
  refine ⟨store, run, ?_⟩
  intro number atMost
  exact canonical.indexed.numberHash_eq canonical.rooted atMost

section Sample

attribute [local instance] chainSampleHashing

/-- After a rewind the number above the head is asked for; then another block
gets it. -/
theorem stale_number_answered :
    (chainSample.run [
      .insertBlockAndExtras (chainSampleHeader 101 100 1) 2,
      .insertBlockAndExtras (chainSampleHeader 102 101 2) 3,
      .rewind 1, .numberHash 2,
      .insertBlockAndExtras (chainSampleHeader 202 101 2) 4]).map (fun store =>
        (store.lastBlockNumber, (store.numberHash 2).1, store.ancestorAt 2)) =
      some (2, hashOfNat 102, hashOfNat 202) := by
  decide +kernel

/-- A shorter chain with a greater total difficulty. -/
theorem run_numberHash_sample : ∃ store,
    chainSample.run [
      .insertBlockAndExtras (chainSampleHeader 101 100 1) 2,
      .insertBlockAndExtras (chainSampleHeader 102 101 2) 3, .numberHash 2,
      .insertBlockAndExtras (chainSampleHeader 201 100 1) 4,
      .numberHash 3] = some store ∧
    ∀ number ≤ store.lastBlockNumber,
      (store.numberHash number).1 = store.ancestorAt number :=
  run_numberHash (by decide +kernel) 1 false _ (by decide +kernel)

end Sample

/-! ## Fork choice -/

theorem Outweighs.trans {tieBreakingGas : Bool} {first second third : Header}
    {firstDifficulty secondDifficulty thirdDifficulty : U256}
    (above : Outweighs tieBreakingGas first firstDifficulty second
      secondDifficulty)
    (below : Outweighs tieBreakingGas second secondDifficulty third
      thirdDifficulty) :
    Outweighs tieBreakingGas first firstDifficulty third
      thirdDifficulty := by
  rcases above with heavier | ⟨tie, same, gas⟩
  · rcases below with heavierStill | ⟨-, sameStill, -⟩
    · exact .inl (BitVec.lt_trans heavierStill heavier)
    · rw [sameStill] at heavier
      exact .inl heavier
  · rw [same]
    rcases below with heavierStill | ⟨_, sameStill, gasStill⟩
    · exact .inl heavierStill
    · exact .inr ⟨tie, sameStill, BitVec.lt_trans gasStill gas⟩

theorem Outweighs.irrefl {tieBreakingGas : Bool} {header : Header}
    {totalDifficulty : U256} :
    ¬ Outweighs tieBreakingGas header totalDifficulty header
      totalDifficulty := by
  rintro (heavier | ⟨-, -, gas⟩)
  · exact BitVec.lt_irrefl _ heavier
  · exact BitVec.lt_irrefl _ gas

/-- A block to import, with its total difficulty. -/
abbrev Arrival := Header × U256

def Arrival.step (arrival : Arrival) : Step :=
  .insertBlockAndExtras arrival.1 arrival.2

/-- Every block comes after its parent. -/
def ParentsFirst : List Header → List Arrival → Prop
  | _, [] => True
  | known, (header, _) :: rest =>
      (∃ parent ∈ known, parent.hash = header.parentHash ∧
        header.number = parent.number + 1) ∧
      ParentsFirst (header :: known) rest

/-- Blocks with different hashes and different total difficulties. -/
structure BlockTree (genesis : Header) (arrivals : List Arrival) : Prop where
  root : genesis.number = 0
  hashes : (genesis.hash :: arrivals.map fun arrival => arrival.1.hash).Nodup
  nonzero : ∀ hash ∈ genesis.hash ::
    arrivals.map fun arrival => arrival.1.hash, hash ≠ zeroHash 32
  number_lt : ∀ arrival ∈ arrivals, arrival.1.number < c_invalidNumber
  difficulties : (arrivals.map Prod.snd).Nodup

/-- The details that are stored of a block. -/
def Arrival.details (arrival : Arrival) : BlockDetails :=
  ⟨arrival.1.number, arrival.2, arrival.1.parentHash⟩

/-- The store has just these blocks, and its head is the best of them. -/
structure Holds (genesis : Header) (difficulty : U256) (tieBreakingGas : Bool)
    (arrivals : List Arrival) (best : Arrival) (store : Store) : Prop where
  canonical : Canonical store
  sameGenesis : store.genesis = genesis
  sameRule : store.tieBreakingGas = tieBreakingGas
  root : store.details genesis.hash = some ⟨0, difficulty, zeroHash 32⟩
  stored : ∀ arrival ∈ arrivals,
    store.details arrival.1.hash = some arrival.details
  only : ∀ hash, Known store hash → hash = genesis.hash ∨
    ∃ arrival ∈ arrivals, arrival.1.hash = hash
  member : best ∈ (genesis, difficulty) :: arrivals
  head : store.lastBlockHash = best.1.hash
  headBlock : store.block store.lastBlockHash = some best.1
  headDifficulty :
    (store.detailsOf store.lastBlockHash).totalDifficulty = best.2
  greatest : ∀ arrival ∈ (genesis, difficulty) :: arrivals,
    ¬ Outweighs tieBreakingGas arrival.1 arrival.2 best.1 best.2
  first : best = (genesis, difficulty) ∨
    Outweighs tieBreakingGas best.1 best.2 genesis difficulty

section Arriving

variable {genesis : Header} {difficulty : U256} {tieBreakingGas : Bool}

theorem Holds.start (nonzero : genesis.hash ≠ zeroHash 32) :
    Holds genesis difficulty tieBreakingGas [] (genesis, difficulty)
      (Store.start genesis difficulty tieBreakingGas) := by
  have root : (Store.start genesis difficulty tieBreakingGas).details
      genesis.hash = some ⟨0, difficulty, zeroHash 32⟩ := by
    simp only [Store.start, Function.update_self]
  refine ⟨.start nonzero difficulty tieBreakingGas, rfl, rfl, root, nofun, ?_,
    List.mem_cons_self, rfl, if_pos rfl, ?_, ?_, .inl rfl⟩
  · intro hash known
    by_contra other
    simp only [not_or] at other
    rw [Known, Store.start] at known
    simp only [Function.update_of_ne other.1] at known
    cases known
  · show ((Store.start genesis difficulty tieBreakingGas).detailsOf
      genesis.hash).totalDifficulty = _
    rw [Store.detailsOf_eq root]
  · intro arrival member
    rw [List.mem_singleton.mp member]
    exact Outweighs.irrefl

/-- The blocks after one more was written. -/
theorem Holds.puts {arrivals : List Arrival} {best best' arrival : Arrival}
    (holds : Holds genesis difficulty tieBreakingGas arrivals best store)
    (importable : Importable store arrival.1 arrival.2) {next : Store}
    (canonical : Canonical next) (puts : Puts arrival.1 arrival.2 store next)
    (member : best' ∈ (genesis, difficulty) :: (arrivals ++ [arrival]))
    (head : next.lastBlockHash = best'.1.hash)
    (headBlock : next.block next.lastBlockHash = some best'.1)
    (headDifficulty :
      (next.detailsOf next.lastBlockHash).totalDifficulty = best'.2)
    (greatest : ∀ other ∈ (genesis, difficulty) :: arrivals,
      ¬ Outweighs tieBreakingGas other.1 other.2 best'.1 best'.2)
    (notNew : ¬ Outweighs tieBreakingGas arrival.1 arrival.2 best'.1 best'.2)
    (first : best' = (genesis, difficulty) ∨
      Outweighs tieBreakingGas best'.1 best'.2 genesis difficulty) :
    Holds genesis difficulty tieBreakingGas (arrivals ++ [arrival]) best'
      next := by
  refine ⟨canonical, puts.genesis.trans holds.sameGenesis,
    puts.tieBreakingGas.trans holds.sameRule, ?_, ?_, ?_, member, head,
    headBlock, headDifficulty, ?_, first⟩
  · rw [puts.details_known importable (by rw [Known, holds.root]; rfl)]
    exact holds.root
  · intro other inside
    rcases List.mem_append.mp inside with old | new
    · have stored := holds.stored other old
      rw [puts.details_known importable (by rw [Known, stored]; rfl)]
      exact stored
    · rw [List.mem_singleton.mp new]
      exact puts.details_new
  · intro hash known
    rcases puts.known.mp known with rfl | old
    · exact .inr ⟨arrival, List.mem_append_right _ List.mem_cons_self, rfl⟩
    · rcases holds.only hash old with root | ⟨other, inside, same⟩
      · exact .inl root
      · exact .inr ⟨other, List.mem_append_left _ inside, same⟩
  · intro other inside
    rw [← List.cons_append] at inside
    rcases List.mem_append.mp inside with old | new
    · exact greatest other old
    · rw [List.mem_singleton.mp new]
      exact notNew

/-- One more block arrives. -/
theorem Holds.insert [Hashing] {arrivals : List Arrival} {best arrival : Arrival}
    (holds : Holds genesis difficulty tieBreakingGas arrivals best store)
    (importable : Importable store arrival.1 arrival.2) :
    ∃ route next best',
      store.insertBlockAndExtras arrival.1 arrival.2 = some (route, next) ∧
      Holds genesis difficulty tieBreakingGas (arrivals ++ [arrival]) best'
        next := by
  have rooted := holds.canonical.rooted
  have isBest := @isBest_eq store arrival.1 best.1 arrival.2 holds.headBlock
  rw [holds.sameRule, holds.headDifficulty] at isBest
  obtain ⟨route, next, inserted, canonical, puts⟩ :=
    holds.canonical.insert importable
  rcases insert_cases rooted importable with
    ⟨worse, same⟩ | ⟨better, up, down, -, same⟩
  · have notNew : ¬ Outweighs tieBreakingGas arrival.1 arrival.2 best.1
        best.2 :=
      of_decide_eq_false (Option.some.inj (isBest.symm.trans worse))
    cases inserted.symm.trans same
    refine ⟨_, _, best, inserted, holds.puts importable canonical puts ?_
      holds.head ?_ ?_ holds.greatest notNew holds.first⟩
    · rw [← List.cons_append]
      exact List.mem_append_left _ holds.member
    · exact (puts.block_known importable rooted.head_known).trans
        holds.headBlock
    · rw [← holds.headDifficulty, Store.detailsOf, Store.detailsOf]
      exact congrArg (fun found => (Option.getD found {}).totalDifficulty)
        (puts.details_known importable rooted.head_known)
  · have heavier : Outweighs tieBreakingGas arrival.1 arrival.2 best.1
        best.2 :=
      of_decide_eq_true (Option.some.inj (isBest.symm.trans better))
    cases inserted.symm.trans same
    refine ⟨_, _, arrival, inserted, holds.puts importable canonical puts ?_
      rfl ?_ ?_ ?_ Outweighs.irrefl (.inr ?_)⟩
    · exact List.mem_cons_of_mem _
        (List.mem_append_right _ List.mem_cons_self)
    · show Store.block _ arrival.1.hash = _
      rw [Store.block, if_neg (by rw [puts.genesis]; exact
        importable.notGenesis), puts.blocks, Function.update_self]
    · show (Store.detailsOf _ arrival.1.hash).totalDifficulty = _
      rw [Store.detailsOf_eq puts.details_new]
    · intro other inside more
      exact holds.greatest other inside (more.trans heavier)
    · rcases holds.first with root | heavierStill
      · rw [root] at heavier
        exact heavier
      · exact heavier.trans heavierStill

/-- A block whose parent has arrived may be imported. -/
theorem Holds.importable {arrivals rest : List Arrival}
    {best arrival : Arrival}
    (holds : Holds genesis difficulty tieBreakingGas arrivals best store)
    (tree : BlockTree genesis (arrivals ++ arrival :: rest))
    (parent : ∃ parent, (parent = genesis ∨
        ∃ other ∈ arrivals, other.1 = parent) ∧
      parent.hash = arrival.1.parentHash ∧
      arrival.1.number = parent.number + 1) :
    ¬ Known store arrival.1.hash ∧
      Importable store arrival.1 arrival.2 := by
  have inside : arrival ∈ arrivals ++ arrival :: rest :=
    List.mem_append_right _ List.mem_cons_self
  have listed : arrival.1.hash ∈ genesis.hash ::
      (arrivals ++ arrival :: rest).map fun arrival => arrival.1.hash :=
    List.mem_cons_of_mem _ (List.mem_map_of_mem inside)
  have hashes := tree.hashes
  rw [List.map_append, List.map_cons, ← List.cons_append,
    List.nodup_middle] at hashes
  have fresh : arrival.1.hash ∉ genesis.hash ::
      arrivals.map fun arrival => arrival.1.hash := by
    intro before
    exact (List.nodup_cons.mp hashes).1 (List.mem_append_left _ before)
  have new : ¬ Known store arrival.1.hash := by
    intro known
    rcases holds.only _ known with root | ⟨other, old, same⟩
    · exact fresh (by rw [root]; exact List.mem_cons_self)
    · refine fresh (List.mem_cons_of_mem _ ?_)
      exact List.mem_map.mpr ⟨other, old, same⟩
  refine ⟨new, ?_, tree.number_lt arrival inside,
    tree.nonzero _ listed, ?_, fun known => absurd known new⟩
  · obtain ⟨parent, origin, hash, number⟩ := parent
    rw [← hash]
    rcases origin with rfl | ⟨other, old, rfl⟩
    · refine ⟨_, holds.root, ?_⟩
      rw [number, tree.root]
    · exact ⟨_, holds.stored other old, number⟩
  · rw [holds.sameGenesis]
    intro same
    exact fresh (by rw [same]; exact List.mem_cons_self)

/-- All blocks arrive, each after its parent. -/
theorem Holds.run [Hashing] {arrivals rest : List Arrival} {best : Arrival}
    {known : List Header}
    (holds : Holds genesis difficulty tieBreakingGas arrivals best store)
    (tree : BlockTree genesis (arrivals ++ rest))
    (order : ParentsFirst known rest)
    (origin : ∀ parent ∈ known, parent = genesis ∨
      ∃ other ∈ arrivals, other.1 = parent) :
    ∃ last best', store.run (rest.map Arrival.step) = some last ∧
      Holds genesis difficulty tieBreakingGas (arrivals ++ rest) best'
        last := by
  induction rest generalizing store arrivals best known with
  | nil =>
      refine ⟨store, best, rfl, ?_⟩
      rw [List.append_nil]
      exact holds
  | cons arrival rest induction =>
      obtain ⟨⟨parent, inKnown, hash, number⟩, restOrder⟩ := order
      have importable := (holds.importable tree
        ⟨parent, origin parent inKnown, hash, number⟩).2
      obtain ⟨route, next, best', inserted, holdsNext⟩ :=
        holds.insert importable
      rw [List.append_cons] at tree
      obtain ⟨last, final, run, holdsLast⟩ := induction holdsNext tree
        restOrder (by
          intro other member
          rcases List.mem_cons.mp member with rfl | old
          · exact .inr ⟨arrival, List.mem_append_right _ List.mem_cons_self,
              rfl⟩
          · rcases origin other old with root | ⟨before, inside, same⟩
            · exact .inl root
            · exact .inr ⟨before, List.mem_append_left _ inside, same⟩)
      refine ⟨last, final, ?_, ?_⟩
      · rw [List.map_cons, Store.run, List.foldlM_cons, Arrival.step,
          Store.step, inserted]
        exact run
      · rw [List.append_cons]
        exact holdsLast

/-- The best block does not depend on the order. -/
theorem Holds.best_unique {arrivals arrivals' : List Arrival}
    {best best' : Arrival} {store store' : Store}
    (holds : Holds genesis difficulty tieBreakingGas arrivals best store)
    (holds' : Holds genesis difficulty tieBreakingGas arrivals' best' store')
    (same : arrivals.Perm arrivals')
    (difficulties : (arrivals.map Prod.snd).Nodup) : best' = best := by
  have member' : best' ∈ (genesis, difficulty) :: arrivals :=
    (same.cons _).mem_iff.mpr holds'.member
  have member : best ∈ (genesis, difficulty) :: arrivals' :=
    (same.cons _).mem_iff.mp holds.member
  have notMore := holds.greatest best' member'
  have notLess := holds'.greatest best member
  have equal : best'.2 = best.2 := by
    apply BitVec.le_antisymm
    · exact BitVec.not_lt.mp fun more => notMore (.inl more)
    · exact BitVec.not_lt.mp fun more => notLess (.inl more)
  rcases List.mem_cons.mp holds.member with root | inside
  · rcases holds'.first with root' | heavier
    · rw [root, root']
    · rw [root] at notMore
      exact absurd heavier notMore
  · rcases List.mem_cons.mp holds'.member with root' | inside'
    · rcases holds.first with root | heavier
      · rw [root, root']
      · rw [root'] at notLess
        exact absurd heavier notLess
    · exact List.inj_on_of_nodup_map difficulties (same.mem_iff.mpr inside')
        inside equal

/-- What is stored does not depend on the order. -/
theorem Holds.details_unique {arrivals arrivals' : List Arrival}
    {best best' : Arrival} {store store' : Store}
    (holds : Holds genesis difficulty tieBreakingGas arrivals best store)
    (holds' : Holds genesis difficulty tieBreakingGas arrivals' best' store')
    (same : arrivals.Perm arrivals') : store'.details = store.details := by
  have half : ∀ {arrivals arrivals' : List Arrival} {best best' : Arrival}
      {store store' : Store},
      Holds genesis difficulty tieBreakingGas arrivals best store →
      Holds genesis difficulty tieBreakingGas arrivals' best' store' →
      arrivals.Perm arrivals' → ∀ hash, Known store hash →
      store'.details hash = store.details hash := by
    intro arrivals arrivals' best best' store store' holds holds' same hash
      known
    rcases holds.only hash known with rfl | ⟨arrival, inside, rfl⟩
    · rw [holds.root, holds'.root]
    · rw [holds.stored arrival inside,
        holds'.stored arrival (same.mem_iff.mp inside)]
  funext hash
  by_cases known : Known store hash
  · exact half holds holds' same hash known
  · by_cases known' : Known store' hash
    · exact (half holds' holds same.symm hash known').symm
    · rw [Option.not_isSome_iff_eq_none.mp known,
        Option.not_isSome_iff_eq_none.mp known']

end Arriving

/-- The route lists the blocks that leave the line of the head and those that
enter it. -/
theorem Rooted.route_exact [Hashing] {header : Header} {totalDifficulty : U256}
    (rooted : Rooted store)
    (importable : Importable store header totalDifficulty)
    (new : ¬ Known store header.hash) {route : ImportRoute} {next : Store}
    (inserted : store.insertBlockAndExtras header totalDifficulty =
      some (route, next)) (hash : H256) :
    (hash ∈ route.deadBlocks ↔ hash ∈ store.canon ∧ hash ∉ next.canon) ∧
      (hash ∈ route.liveBlocks ↔ hash ∈ next.canon ∧ hash ∉ store.canon) := by
  rcases insert_cases rooted importable with
    ⟨-, same⟩ | ⟨-, up, down, meeting, same⟩
  · cases inserted.symm.trans same
    have line : (store.put header totalDifficulty).canon = store.canon :=
      importable.puts.line_known importable rooted rooted.head_known
    rw [line]
    simp
  · cases inserted.symm.trans same
    have puts := importable.puts_adopt up down
    have canon : (store.adopt header totalDifficulty up down).canon =
        header.hash :: line store.parent store.number header.parentHash :=
      puts.line_new importable rooted
    have away : header.hash ∉ store.canon := by
      intro onLine
      rw [Store.canon, line, mem_path] at onLine
      obtain ⟨step, inRange, found⟩ := onLine
      apply new
      rw [← found]
      exact rooted.tree.iterate_mem rooted.head_known
        (Nat.le_of_lt_succ inRange)
    have dead := @Tree.mem_path_iff _ _ _ _ _ _ _ rooted.tree
      rooted.head_known importable.parent_known _ _ meeting hash
    have live := @Tree.mem_path_iff _ _ _ _ _ _ _ rooted.tree
      importable.parent_known rooted.head_known _ _ meeting.symm hash
    rw [canon]
    simp only [List.mem_append, List.mem_reverse, List.mem_cons,
      List.not_mem_nil, or_false, dead, live]
    by_cases here : hash = header.hash
    · subst here
      simp only [Store.canon] at away ⊢
      simp [away]
    · simp only [here, or_false, false_or, Store.canon, and_self]

theorem BlockTree.left {genesis : Header} {arrivals rest : List Arrival}
    (tree : BlockTree genesis (arrivals ++ rest)) :
    BlockTree genesis arrivals := by
  have fewer : (arrivals.map fun arrival => arrival.1.hash).Sublist
      ((arrivals ++ rest).map fun arrival => arrival.1.hash) :=
    (List.sublist_append_left _ _).map _
  refine ⟨tree.root, tree.hashes.sublist (fewer.cons_cons _), ?_, ?_,
    tree.difficulties.sublist ((List.sublist_append_left _ _).map _)⟩
  · intro hash member
    exact tree.nonzero hash ((fewer.cons_cons _).subset member)
  · intro arrival member
    exact tree.number_lt arrival (List.mem_append_left _ member)

theorem ParentsFirst.append {known : List Header}
    {arrivals rest : List Arrival}
    (order : ParentsFirst known (arrivals ++ rest)) :
    ParentsFirst known arrivals ∧
      ParentsFirst ((arrivals.map Prod.fst).reverse ++ known) rest := by
  induction arrivals generalizing known with
  | nil => exact ⟨trivial, order⟩
  | cons arrival arrivals induction =>
      obtain ⟨first, second⟩ := induction order.2
      refine ⟨⟨order.1, first⟩, ?_⟩
      rw [List.map_cons, List.reverse_cons, List.append_assoc]
      exact second

/-- The head, its number and the number index do not depend on the order in
which the blocks arrive; the head has the greatest total difficulty, and each
imported block lists the blocks that leave and enter the line of the head. -/
theorem import_order_irrelevant [Hashing] {genesis : Header}
    (difficulty : U256) (tieBreakingGas : Bool)
    {arrivals arrivals' : List Arrival} (tree : BlockTree genesis arrivals)
    (same : arrivals.Perm arrivals')
    (order : ParentsFirst [genesis] arrivals)
    (order' : ParentsFirst [genesis] arrivals') :
    let start := Store.start genesis difficulty tieBreakingGas
    ∃ store store', start.run (arrivals.map Arrival.step) = some store ∧
      start.run (arrivals'.map Arrival.step) = some store' ∧
      store'.lastBlockHash = store.lastBlockHash ∧
      store'.lastBlockNumber = store.lastBlockNumber ∧
      (∃ best ∈ (genesis, difficulty) :: arrivals,
        store.lastBlockHash = best.1.hash ∧
        ∀ arrival ∈ (genesis, difficulty) :: arrivals,
          arrival.2 ≤ best.2) ∧
      (∀ number ≤ store.lastBlockNumber,
        (store'.numberHash number).1 = (store.numberHash number).1) ∧
      ∀ before arrival after, arrivals = before ++ arrival :: after →
        ∃ middle route next,
          start.run (before.map Arrival.step) = some middle ∧
          middle.insertBlockAndExtras arrival.1 arrival.2 =
            some (route, next) ∧
          ∀ hash, (hash ∈ route.deadBlocks ↔
              hash ∈ middle.canon ∧ hash ∉ next.canon) ∧
            (hash ∈ route.liveBlocks ↔
              hash ∈ next.canon ∧ hash ∉ middle.canon) := by
  have started : Holds genesis difficulty tieBreakingGas [] _
      (Store.start genesis difficulty tieBreakingGas) :=
    Holds.start (tree.nonzero _ List.mem_cons_self)
  have origin : ∀ {arrivals : List Arrival}, ∀ parent ∈ [genesis],
      parent = genesis ∨ ∃ other ∈ arrivals, other.1 = parent :=
    fun parent member => .inl (List.mem_singleton.mp member)
  have tree' : BlockTree genesis arrivals' := by
    have hashes := same.map fun arrival => arrival.1.hash
    refine ⟨tree.root, (hashes.cons _).nodup_iff.mp tree.hashes, ?_, ?_,
      (same.map _).nodup_iff.mp tree.difficulties⟩
    · intro hash member
      exact tree.nonzero hash ((hashes.cons _).mem_iff.mpr member)
    · intro arrival member
      exact tree.number_lt arrival (same.mem_iff.mpr member)
  obtain ⟨store, best, run, holds⟩ := started.run tree order origin
  obtain ⟨store', best', run', holds'⟩ := started.run tree' order' origin
  rw [List.nil_append] at holds holds'
  have bestSame := holds.best_unique holds' same tree.difficulties
  have details := holds.details_unique holds' same
  have hash : store'.lastBlockHash = store.lastBlockHash := by
    rw [holds.head, holds'.head, bestSame]
  have number : store'.lastBlockNumber = store.lastBlockNumber := by
    rw [← holds.canonical.rooted.number_head,
      ← holds'.canonical.rooted.number_head, hash, Store.number, Store.number,
      Store.detailsOf, Store.detailsOf, details]
  refine ⟨store, store', run, run', hash, number,
    ⟨best, holds.member, holds.head, ?_⟩, ?_, ?_⟩
  · intro arrival member
    exact BitVec.not_lt.mp fun more =>
      holds.greatest arrival member (.inl more)
  · intro height atMost
    rw [holds.canonical.indexed.numberHash_eq holds.canonical.rooted atMost,
      holds'.canonical.indexed.numberHash_eq holds'.canonical.rooted
        (by rw [number]; exact atMost), Store.ancestorAt, Store.ancestorAt,
      parent_congr details, hash, number]
  · intro before arrival after split
    rw [split] at tree order
    obtain ⟨beforeOrder, restOrder⟩ := order.append
    obtain ⟨middle, middleBest, runBefore, holdsBefore⟩ :=
      started.run tree.left beforeOrder origin
    rw [List.nil_append] at holdsBefore
    obtain ⟨parent, inKnown, parentHash, parentNumber⟩ := restOrder.1
    have parentOrigin : parent = genesis ∨
        ∃ other ∈ before, other.1 = parent := by
      rcases List.mem_append.mp inKnown with inside | root
      · rw [List.mem_reverse] at inside
        obtain ⟨other, old, same⟩ := List.mem_map.mp inside
        exact .inr ⟨other, old, same⟩
      · exact .inl (List.mem_singleton.mp root)
    obtain ⟨new, importable⟩ := holdsBefore.importable tree
      ⟨parent, parentOrigin, parentHash, parentNumber⟩
    obtain ⟨route, next, _, inserted, -⟩ := holdsBefore.insert importable
    exact ⟨middle, route, next, runBefore, inserted,
      holdsBefore.canonical.rooted.route_exact importable new inserted⟩

section Sample

attribute [local instance] chainSampleHashing

/-- Two chains, the shorter of which has the greater total difficulty. -/
theorem import_order_irrelevant_sample : ∃ store store',
    chainSample.run [
      .insertBlockAndExtras (chainSampleHeader 101 100 1) 2,
      .insertBlockAndExtras (chainSampleHeader 102 101 2) 3,
      .insertBlockAndExtras (chainSampleHeader 201 100 1) 4] = some store ∧
    chainSample.run [
      .insertBlockAndExtras (chainSampleHeader 201 100 1) 4,
      .insertBlockAndExtras (chainSampleHeader 101 100 1) 2,
      .insertBlockAndExtras (chainSampleHeader 102 101 2) 3] = some store' ∧
    store'.lastBlockHash = store.lastBlockHash := by
  have tree : BlockTree (chainSampleHeader 100 0 0)
      [(chainSampleHeader 101 100 1, 2), (chainSampleHeader 102 101 2, 3),
        (chainSampleHeader 201 100 1, 4)] := by
    refine ⟨rfl, ?_, ?_, ?_, ?_⟩ <;> decide +kernel
  obtain ⟨store, store', run, run', hash, -⟩ :=
    @import_order_irrelevant _ _ 1 false _
      [(chainSampleHeader 201 100 1, 4), (chainSampleHeader 101 100 1, 2),
        (chainSampleHeader 102 101 2, 3)] tree (by decide +kernel)
      ⟨⟨_, List.mem_cons_self, rfl, rfl⟩, ⟨_, List.mem_cons_self, rfl, rfl⟩,
        ⟨chainSampleHeader 100 0 0, by decide +kernel, rfl, rfl⟩, trivial⟩
      ⟨⟨_, List.mem_cons_self, rfl, rfl⟩,
        ⟨chainSampleHeader 100 0 0, by decide +kernel, rfl, rfl⟩,
        ⟨_, List.mem_cons_self, rfl, rfl⟩, trivial⟩
  exact ⟨store, store', run, run', hash⟩

end Sample

end BlockChain

end Aecmio
