import Aecmio.Chain.BlockChain

/-!
# Importing what was drained

`sync` takes verified blocks from the queue and imports one after the other.
Every import stands in a `do` loop that some exceptions leave with `continue`,
so that the block is tried once more; but `continue` goes on to the condition
of the loop, which is `false`.
-/

namespace Aecmio

namespace BlockChain

/-- What an import may throw. -/
inductive ImportException where
  | alreadyHaveBlock
  | unknownParent
  | futureTime
  | transientError
  /-- Any other exception. -/
  | other
deriving DecidableEq

/-- An attempt to import a block; `none` if it does not return.  The state is
that of the chain and of whatever else the outcome depends on. -/
abbrev Importer (State : Type) :=
  Header → State → Option (Except ImportException ImportRoute × State)

/-! ## The import of a block -/

/-- What `import` finds besides the chain: the clock, the timestamp of the
block, whether `verifyBlock` accepts it and what `enactOn` comes to. -/
structure Surroundings where
  utcTime : Int
  allowFutureBlocks : Bool
  timestamp : Int
  verified : Bool
  /-- `BadRoot` or another exception. -/
  badRoot : Bool
  /-- The increase of the total difficulty, if nothing is thrown. -/
  enacted : Option U256

/-- `isKnown`. -/
def Store.isKnown (hash : H256) (isCurrent : Bool) (store : Store) : Bool :=
  hash = store.genesis.hash ∨ (store.blocks hash).isSome ∧
    (store.details hash).isSome ∧
      (isCurrent = false ∨ store.number hash ≤ store.lastBlockNumber)

/-- `import` of a block that has to be new. -/
def Store.import_ [Hashing] (around : Surroundings) : Importer Store :=
  fun header store =>
    if store.isKnown header.hash true then
      some (.error .alreadyHaveBlock, store)
    else if !store.isKnown header.parentHash false then
      some (.error .unknownParent, store)
    else if around.utcTime < around.timestamp ∧
        around.allowFutureBlocks = false then
      some (.error .futureTime, store)
    else if !around.verified then some (.error .other, store)
    else
      match around.enacted with
      | none =>
          some (.error (if around.badRoot then .transientError else .other),
            store)
      | some tdIncrease => do
          let (route, store) ← store.insertBlockAndExtras header
            ((store.detailsOf header.parentHash).totalDifficulty + tdIncrease)
          return (.ok route, store)

/-! ## The loop over the blocks -/

/-- One attempt to import the block at an index of the list. -/
structure Attempt where
  index : Nat
  outcome : Except ImportException ImportRoute

/-- What `sync` gathers; the attempts are kept for the statements. -/
structure Synced where
  fresh : List H256 := []
  dead : List H256 := []
  badBlocks : List H256 := []
  goodTransactions : List H256 := []
  count : Nat := 0
  attempts : List Attempt := []

/-- The body of the `do` loop. -/
def Synced.note (index : Nat) (header : Header)
    (outcome : Except ImportException ImportRoute) (synced : Synced) :
    Synced :=
  let synced := { synced with attempts := synced.attempts ++ [⟨index, outcome⟩] }
  match outcome with
  | .ok route => { synced with
      fresh := synced.fresh ++ route.liveBlocks
      dead := synced.dead ++ route.deadBlocks
      goodTransactions := synced.goodTransactions ++ route.goodTransactions
      count := synced.count + 1 }
  | .error .alreadyHaveBlock => synced
  | .error .unknownParent =>
      { synced with badBlocks := synced.badBlocks ++ [header.hash] }
  | .error .futureTime => synced
  | .error .transientError => synced
  | .error .other =>
      { synced with badBlocks := synced.badBlocks ++ [header.hash] }

/-- The loop over the drained blocks, from an index on.  The `do` loop is left
after its first round whatever happens. -/
def syncFrom {State : Type} (importer : Importer State) :
    Nat → List Header → State → Synced → Option (Synced × State)
  | _, [], state, synced => some (synced, state)
  | index, header :: blocks, state, synced => do
      let (outcome, state) ← importer header state
      syncFrom importer (index + 1) blocks state
        (synced.note index header outcome)

/-- `sync` of the drained blocks. -/
def sync {State : Type} (importer : Importer State) (blocks : List Header)
    (state : State) : Option (Synced × State) :=
  syncFrom importer 0 blocks state {}

/-! ## What is lost -/

/-- The outcomes after which a block is to be tried again. -/
def Attempt.Passing (attempt : Attempt) : Prop :=
  attempt.outcome = .error .futureTime ∨
    attempt.outcome = .error .transientError

/-- The outcomes after which a block is in the chain. -/
def Attempt.Settling (attempt : Attempt) : Prop :=
  (∃ route, attempt.outcome = .ok route) ∨
    attempt.outcome = .error .alreadyHaveBlock

/-- Every block is in the chain or bad, and a block that could not be imported
yet is tried again before the next one. -/
structure NoneLost (blocks : List Header) (synced : Synced) : Prop where
  accounted : ∀ index header, blocks[index]? = some header →
    (∃ attempt ∈ synced.attempts,
      attempt.index = index ∧ attempt.Settling) ∨
        header.hash ∈ synced.badBlocks
  again : ∀ before attempt after,
    synced.attempts = before ++ attempt :: after → attempt.Passing →
      ∃ next rest, after = next :: rest ∧ next.index = attempt.index

/-- No import ends in one of the passing exceptions, the blocks being imported
once each and in their order. -/
def Untroubled {State : Type} (importer : Importer State) :
    Nat → List Header → State → Prop
  | _, [], _ => True
  | index, header :: blocks, state =>
      match importer header state with
      | none => True
      | some (outcome, state) => ¬Attempt.Passing ⟨index, outcome⟩ ∧
          Untroubled importer (index + 1) blocks state

section Loop

variable {State : Type} {importer : Importer State} {blocks : List Header}
  {header : Header} {state state' : State} {synced synced' : Synced}
  {index : Nat} {outcome : Except ImportException ImportRoute}

theorem Synced.note_attempts :
    (synced.note index header outcome).attempts =
      synced.attempts ++ [⟨index, outcome⟩] := by
  unfold Synced.note
  split <;> rfl

theorem Synced.note_badBlocks {hash : H256}
    (bad : hash ∈ synced.badBlocks) :
    hash ∈ (synced.note index header outcome).badBlocks := by
  unfold Synced.note
  split
  · exact bad
  · exact bad
  · exact List.mem_append_left _ bad
  · exact bad
  · exact bad
  · exact List.mem_append_left _ bad

/-- An attempt settles a block, makes it bad or is passing. -/
theorem Synced.note_cases :
    Attempt.Settling ⟨index, outcome⟩ ∨
      header.hash ∈ (synced.note index header outcome).badBlocks ∨
        Attempt.Passing ⟨index, outcome⟩ := by
  rcases outcome with exception | route
  · cases exception with
    | alreadyHaveBlock => exact .inl (.inr rfl)
    | unknownParent =>
        exact .inr (.inl (List.mem_append_right _ List.mem_cons_self))
    | futureTime => exact .inr (.inr (.inl rfl))
    | transientError => exact .inr (.inr (.inr rfl))
    | other => exact .inr (.inl (List.mem_append_right _ List.mem_cons_self))
  · exact .inl (.inl ⟨route, rfl⟩)

/-- What a run of the loop adds. -/
structure Adds (importer : Importer State) (index : Nat) (blocks : List Header)
    (state : State) (synced synced' : Synced) (added : List Attempt) :
    Prop where
  attempts : synced'.attempts = synced.attempts ++ added
  inOrder : added.map Attempt.index = List.range' index blocks.length
  bad : ∀ hash ∈ synced.badBlocks, hash ∈ synced'.badBlocks
  each : ∀ offset header, blocks[offset]? = some header → ∃ attempt ∈ added,
    attempt.index = index + offset ∧ (attempt.Settling ∨
      header.hash ∈ synced'.badBlocks ∨ attempt.Passing)
  untroubled : Untroubled importer index blocks state ↔
    ∀ attempt ∈ added, ¬attempt.Passing

theorem syncFrom_adds
    (ran : syncFrom importer index blocks state synced =
      some (synced', state')) :
    ∃ added, Adds importer index blocks state synced synced' added := by
  induction blocks generalizing index state synced with
  | nil =>
      cases ran
      refine ⟨[], (List.append_nil _).symm, rfl, fun _ => id, ?_, ?_⟩
      · intro offset header found
        cases found
      · exact ⟨fun _ _ member => absurd member List.not_mem_nil,
          fun _ => trivial⟩
  | cons header blocks induction =>
      obtain ⟨⟨outcome, middle⟩, tried, ran⟩ := Option.bind_eq_some_iff.mp ran
      obtain ⟨added, adds⟩ := induction ran
      refine ⟨⟨index, outcome⟩ :: added, ?_, ?_, ?_, ?_, ?_⟩
      · rw [adds.attempts, Synced.note_attempts, List.append_assoc]
        rfl
      · rw [List.map_cons, adds.inOrder, List.length_cons, List.range'_succ]
      · intro hash before
        exact adds.bad hash (Synced.note_badBlocks before)
      · intro offset other found
        cases offset with
        | zero =>
            cases found
            refine ⟨⟨index, outcome⟩, List.mem_cons_self, rfl, ?_⟩
            exact Synced.note_cases.imp id (Or.imp (adds.bad _) id)
        | succ offset =>
            obtain ⟨attempt, member, position, holds⟩ :=
              adds.each offset other found
            refine ⟨attempt, List.mem_cons_of_mem _ member, ?_, holds⟩
            omega
      · rw [Untroubled, tried, List.forall_mem_cons]
        exact and_congr Iff.rfl adds.untroubled

/-- No drained block is lost exactly when no import ends in an exception after
which the block should be tried again. -/
theorem sync_loses_nothing_iff
    (ran : sync importer blocks state = some (synced, state')) :
    NoneLost blocks synced ↔ Untroubled importer 0 blocks state := by
  obtain ⟨added, adds⟩ := syncFrom_adds ran
  have attempts : synced.attempts = added := adds.attempts
  rw [adds.untroubled]
  constructor
  · intro noneLost attempt member passing
    obtain ⟨before, after, split⟩ := List.append_of_mem member
    obtain ⟨next, rest, following, same⟩ :=
      noneLost.again before attempt after (attempts.trans split) passing
    have distinct : (added.map Attempt.index).Nodup := by
      rw [adds.inOrder]
      exact List.nodup_range'
    rw [split, following, List.map_append, List.map_cons, List.map_cons, same]
      at distinct
    have apart := (List.nodup_append.mp distinct).2.1
    exact (List.nodup_cons.mp apart).1 List.mem_cons_self
  · intro never
    constructor
    · intro index header found
      obtain ⟨attempt, member, position, holds⟩ := adds.each index header found
      rw [Nat.zero_add] at position
      rcases holds with settles | bad | passing
      · rw [attempts]
        exact .inl ⟨attempt, member, position, settles⟩
      · exact .inr bad
      · exact absurd passing (never attempt member)
    · intro before attempt after split passing
      rw [attempts] at split
      have member : attempt ∈ added := by
        rw [split]
        exact List.mem_append_right _ List.mem_cons_self
      exact absurd passing (never attempt member)

end Loop

section Sample

/-- The chain of the blocks below has one block. -/
def drainSampleHashing : Hashing where
  sha3 _ := zeroHash 32
  trieRoot _ := zeroHash 32

attribute [local instance] drainSampleHashing

/-- A genesis block, and a block on it whose time has not come. -/
def drainSample : Store :=
  Store.start ⟨hashOfNat 1, zeroHash 32, 0, 0, zeroHash 256, zeroHash 20, []⟩ 5
    false

def earlyBlock : Header :=
  ⟨hashOfNat 2, hashOfNat 1, 1, 0, zeroHash 256, zeroHash 20, []⟩

/-- The clock is a second behind the timestamp. -/
def early : Surroundings :=
  ⟨1500000000, false, 1500000001, true, false, some 7⟩

theorem earlyBlock_tried : sync (Store.import_ early) [earlyBlock] drainSample =
    some ({ attempts := [⟨0, .error .futureTime⟩] }, drainSample) := rfl

theorem sync_loses_nothing_iff_sample :
    NoneLost [earlyBlock] { attempts := [⟨0, .error .futureTime⟩] } ↔
      Untroubled (Store.import_ early) 0 [earlyBlock] drainSample :=
  sync_loses_nothing_iff earlyBlock_tried

/-- The block is dropped after the first attempt, and it is not bad. -/
theorem early_block_lost :
    ¬∀ (importer : Importer Store) (blocks : List Header)
      (store store' : Store) (synced : Synced),
      sync importer blocks store = some (synced, store') →
        NoneLost blocks synced := by
  intro all
  have noneLost := all _ _ _ _ _ earlyBlock_tried
  rcases noneLost.accounted 0 earlyBlock rfl with ⟨attempt, member, -, settles⟩ |
    bad
  · rw [List.mem_singleton.mp member] at settles
    rcases settles with ⟨route, imported⟩ | known
    · cases imported
    · cases known
  · exact List.not_mem_nil bad

end Sample

end BlockChain

end Aecmio
