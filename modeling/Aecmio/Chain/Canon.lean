import Aecmio.Chain.Routes

/-!
# The chain of the head

The blocks of a store are a tree whose root is the genesis block.  The index
from numbers to hashes follows the line of the head as long as nothing above
the head is read from the database into the cache.
-/

namespace Aecmio

namespace BlockChain

open Ancestry

variable {store store' : Store}

/-! ## The tree -/

/-- What is stored of a block that is not the genesis block. -/
structure Linked (store : Store) (hash : H256) (details : BlockDetails) :
    Prop where
  parent : ∃ above, store.details details.parent = some above ∧
    details.number = above.number + 1
  block : ∃ header, store.blocks hash = some header ∧ header.hash = hash ∧
    header.number = details.number ∧ header.parentHash = details.parent

structure Rooted (store : Store) : Prop where
  genesis : ∃ details, store.details store.genesis.hash = some details ∧
    details.number = 0
  nonzero : ∀ hash details, store.details hash = some details →
    hash ≠ zeroHash 32
  number_lt : ∀ hash details, store.details hash = some details →
    details.number < c_invalidNumber
  linked : ∀ hash details, store.details hash = some details →
    hash ≠ store.genesis.hash → Linked store hash details
  head : ∃ details, store.details store.lastBlockHash = some details ∧
    details.number = store.lastBlockNumber

namespace Store

/-- The line of the head, from the head to the genesis block. -/
def canon (store : Store) : List H256 :=
  line store.parent store.number store.lastBlockHash

/-- The ancestor of the head at some height. -/
def ancestorAt (store : Store) (height : Nat) : H256 :=
  store.parent^[store.lastBlockNumber - height] store.lastBlockHash

end Store

namespace Rooted

theorem tree (rooted : Rooted store) :
    Tree (Known store) store.parent store.number store.genesis.hash := by
  have linked : ∀ {hash : H256}, Known store hash →
      hash ≠ store.genesis.hash →
      ∃ details, store.details hash = some details ∧
        Linked store hash details := by
    intro hash known notGenesis
    obtain ⟨details, found⟩ := Option.isSome_iff_exists.mp known
    exact ⟨details, found, rooted.linked hash details found notGenesis⟩
  obtain ⟨genesis, genesisFound, zero⟩ := rooted.genesis
  refine ⟨?_, ?_, ?_, ?_⟩
  · rw [Known, genesisFound]
    rfl
  · rw [Store.number_eq genesisFound, zero]
  · intro hash known notGenesis
    obtain ⟨details, found, link⟩ := linked known notGenesis
    obtain ⟨above, aboveFound, -⟩ := link.parent
    rw [Store.parent_eq found, Known, aboveFound]
    rfl
  · intro hash known notGenesis
    obtain ⟨details, found, link⟩ := linked known notGenesis
    obtain ⟨above, aboveFound, number⟩ := link.parent
    rw [Store.number_eq found, Store.parent_eq found,
      Store.number_eq aboveFound, number]

theorem head_known (rooted : Rooted store) :
    Known store store.lastBlockHash := by
  obtain ⟨details, found, -⟩ := rooted.head
  rw [Known, found]
  rfl

theorem number_head (rooted : Rooted store) :
    store.number store.lastBlockHash = store.lastBlockNumber := by
  obtain ⟨details, found, number⟩ := rooted.head
  rw [Store.number_eq found, number]

theorem ne_zero (rooted : Rooted store) {hash : H256}
    (known : Known store hash) : hash ≠ zeroHash 32 := by
  obtain ⟨details, found⟩ := Option.isSome_iff_exists.mp known
  exact rooted.nonzero hash details found

theorem number_lt_invalid (rooted : Rooted store) {hash : H256}
    (known : Known store hash) : store.number hash < c_invalidNumber := by
  obtain ⟨details, found⟩ := Option.isSome_iff_exists.mp known
  rw [Store.number_eq found]
  exact rooted.number_lt hash details found

/-- The header of a block. -/
theorem block (rooted : Rooted store) {hash : H256}
    (known : Known store hash) (notGenesis : hash ≠ store.genesis.hash) :
    ∃ header, store.block hash = some header ∧ header.hash = hash ∧
      header.number = store.number hash := by
  obtain ⟨details, found⟩ := Option.isSome_iff_exists.mp known
  obtain ⟨header, stored, hashEq, number, -⟩ :=
    (rooted.linked hash details found notGenesis).block
  refine ⟨header, ?_, hashEq, ?_⟩
  · rw [Store.block, if_neg notGenesis, stored]
  · rw [Store.number_eq found, number]

end Rooted

/-- The details of the blocks of a chain. -/
theorem Rooted.branching (rooted : Rooted store) :
    Branching store store.genesis.hash := by
  have tree := rooted.tree
  constructor
  · exact tree.root_mem
  · intro hash known
    exact rooted.ne_zero known
  · intro hash known
    exact rooted.number_lt_invalid known
  · intro hash known notGenesis
    exact tree.parent_mem known notGenesis
  · intro hash known notGenesis
    exact tree.height_eq known notGenesis

/-- The route goes over the block where the lines of two blocks meet. -/
theorem Rooted.treeRoute_meets (rooted : Rooted store) {start goal : H256}
    (startKnown : Known store start) (goalKnown : Known store goal)
    (common pre post : Bool) :
    ∃ up down, store.treeRoute start goal common pre post =
        some ((if pre then path store.parent up start else []) ++
          (if common ∧ (pre ∨ post) then [store.parent^[up] start] else []) ++
          (if post then (path store.parent down goal).reverse else []),
          store.parent^[up] start, routeIndex common pre post up down) ∧
      Meeting store.parent store.number start goal up down := by
  obtain ⟨up, down, meeting, route⟩ :=
    rooted.branching.route startKnown goalKnown
  have heights : store.depth store.genesis.hash = store.number := by
    funext hash
    rw [Store.depth, rooted.tree.height_root, Nat.sub_zero]
  rw [heights] at meeting
  exact ⟨up, down, route common pre post, meeting⟩

/-! ## Imports -/

/-- A block that may be imported: it is a child of a known block, and if it is
known itself, then as the same block. -/
structure Importable (store : Store) (header : Header)
    (totalDifficulty : U256) : Prop where
  parent : ∃ above, store.details header.parentHash = some above ∧
    header.number = above.number + 1
  number_lt : header.number < c_invalidNumber
  nonzero : header.hash ≠ zeroHash 32
  notGenesis : header.hash ≠ store.genesis.hash
  again : Known store header.hash → store.blocks header.hash = some header ∧
    store.details header.hash =
      some ⟨header.number, totalDifficulty, header.parentHash⟩

instance (store : Store) (header : Header) (totalDifficulty : U256) :
    Decidable (Importable store header totalDifficulty) :=
  decidable_of_iff ((store.details header.parentHash).any (fun above =>
      header.number = above.number + 1) ∧
    header.number < c_invalidNumber ∧ header.hash ≠ zeroHash 32 ∧
    header.hash ≠ store.genesis.hash ∧
    ((store.details header.hash).isSome →
      store.blocks header.hash = some header ∧ store.details header.hash =
        some ⟨header.number, totalDifficulty, header.parentHash⟩)) (by
    constructor
    · intro all
      obtain ⟨parent, number_lt, nonzero, notGenesis, again⟩ := all
      obtain ⟨above, found, number⟩ := (Option.any_eq_true _ _).mp parent
      exact ⟨⟨above, found, of_decide_eq_true number⟩, number_lt, nonzero,
        notGenesis, again⟩
    · intro importable
      obtain ⟨above, found, number⟩ := importable.parent
      exact ⟨(Option.any_eq_true _ _).mpr
        ⟨above, found, decide_eq_true number⟩,
        importable.number_lt, importable.nonzero, importable.notGenesis,
        importable.again⟩)

namespace Importable

variable {header : Header} {totalDifficulty : U256}

theorem parent_known (importable : Importable store header totalDifficulty) :
    Known store header.parentHash := by
  obtain ⟨above, found, -⟩ := importable.parent
  rw [Known, found]
  rfl

theorem number_parent (importable : Importable store header totalDifficulty) :
    header.number = store.number header.parentHash + 1 := by
  obtain ⟨above, found, number⟩ := importable.parent
  rw [Store.number_eq found, number]

theorem number_mod (importable : Importable store header totalDifficulty) :
    header.number % 2 ^ 32 = header.number := by
  apply Nat.mod_eq_of_lt
  exact importable.number_lt.trans (by decide)

/-- The block is not one that its parent descends from. -/
theorem ne_ancestor (importable : Importable store header totalDifficulty)
    (rooted : Rooted store) {steps : Nat}
    (enough : steps ≤ store.number header.parentHash) :
    store.parent^[steps] header.parentHash ≠ header.hash := by
  intro same
  have known := rooted.tree.iterate_mem importable.parent_known enough
  have heights := rooted.tree.height_iterate importable.parent_known enough
  rw [same] at known heights
  have number := importable.number_parent
  rw [Store.number_eq (importable.again known).2] at heights
  simp only at heights
  omega

end Importable

namespace Store

/-- The headers of the blocks that enter the chain of the head. -/
def entering (store : Store) (header : Header) (down : Nat) : List Header :=
  header :: (path store.parent down header.parentHash).map fun hash =>
    (store.block hash).getD header

/-- The store after the caches for `up` blocks were cleared. -/
def reverted (store : Store) (up : Nat) : Store :=
  if up = 0 then store
  else store.clearCachesDuringChainReversion (store.lastBlockNumber - up + 1)

/-- The store after a block became the head. -/
def adopt [Hashing] (store : Store) (header : Header) (totalDifficulty : U256)
    (up down : Nat) : Store :=
  { ((store.entering header down).foldl enter (store.reverted up)).put header
      totalDifficulty with
    lastBlockHash := header.hash
    lastBlockNumber := header.number }

end Store

theorem mapM_eq_some {Element Result : Type} {list : List Element}
    {function : Element → Option Result} {result : Element → Result}
    (found : ∀ element ∈ list, function element = some (result element)) :
    list.mapM function = some (list.map result) := by
  induction list with
  | nil => rfl
  | cons first rest induction =>
      rw [List.mapM_cons, found first List.mem_cons_self,
        induction fun element member =>
          found element (List.mem_cons_of_mem _ member)]
      rfl

/-- A block with some total difficulty is better than another one. -/
def Outweighs (tieBreakingGas : Bool) (header : Header)
    (totalDifficulty : U256) (other : Header) (otherDifficulty : U256) :
    Prop :=
  otherDifficulty < totalDifficulty ∨ (tieBreakingGas ∧
    totalDifficulty = otherDifficulty ∧ other.gasUsed < header.gasUsed)

instance (tieBreakingGas : Bool) (header : Header) (totalDifficulty : U256)
    (other : Header) (otherDifficulty : U256) :
    Decidable (Outweighs tieBreakingGas header totalDifficulty other
      otherDifficulty) :=
  inferInstanceAs (Decidable (_ ∨ _))

theorem Rooted.block_head (rooted : Rooted store) :
    ∃ last, store.block store.lastBlockHash = some last := by
  by_cases atGenesis : store.lastBlockHash = store.genesis.hash
  · exact ⟨store.genesis, if_pos atGenesis⟩
  · obtain ⟨last, found, -⟩ := rooted.block rooted.head_known atGenesis
    exact ⟨last, found⟩

theorem isBest_eq {header last : Header} {totalDifficulty : U256}
    (found : store.block store.lastBlockHash = some last) :
    store.isBest header totalDifficulty =
      some (decide (Outweighs store.tieBreakingGas header totalDifficulty last
        (store.detailsOf store.lastBlockHash).totalDifficulty)) := by
  unfold Store.isBest Outweighs
  rw [found]
  by_cases heavier :
      (store.detailsOf store.lastBlockHash).totalDifficulty < totalDifficulty
  · simp [heavier]
  · by_cases tie : store.tieBreakingGas ∧
      totalDifficulty = (store.detailsOf store.lastBlockHash).totalDifficulty
    · simp [tie]
    · simp [heavier, tie, ← and_assoc]

/-- The common block of a route and the blocks on both sides of it. -/
theorem takeWhile_route {before after : List H256} {common : H256}
    (apart : ∀ hash ∈ before, hash ≠ common) :
    (before ++ common :: after).takeWhile (fun hash => hash ≠ common) =
      before := by
  rw [List.takeWhile_append_of_pos fun hash member =>
    decide_eq_true (apart hash member), List.takeWhile_cons_of_neg (by simp),
    List.append_nil]

theorem dropWhile_route {before after : List H256} {common : H256}
    (apart : ∀ hash ∈ before, hash ≠ common) :
    (before ++ common :: after).dropWhile (fun hash => hash ≠ common) =
      common :: after := by
  rw [List.dropWhile_append_of_pos fun hash member =>
    decide_eq_true (apart hash member), List.dropWhile_cons_of_neg (by simp)]

/-- What stands on both sides of the meeting is not the common block. -/
theorem Rooted.ne_common (rooted : Rooted store) {hash other : H256}
    (known : Known store hash) {steps : Nat} (enough : steps ≤ store.number hash)
    (member : other ∈ path store.parent steps hash) :
    other ≠ store.parent^[steps] hash := by
  obtain ⟨step, fewer, rfl⟩ := mem_path.mp member
  intro same
  have heights := rooted.tree.height_iterate known enough
  have stepHeights := rooted.tree.height_iterate known
    (Nat.le_of_lt (Nat.lt_of_lt_of_le fewer enough))
  rw [same] at stepHeights
  omega

/-- The headers of the blocks of a route. -/
theorem Importable.mapM_routeHeader {header : Header}
    {totalDifficulty : U256}
    (importable : Importable store header totalDifficulty)
    (rooted : Rooted store) {down : Nat}
    (enough : down ≤ store.number header.parentHash) :
    (header.hash :: path store.parent down header.parentHash).mapM
      (store.routeHeader header) = some (store.entering header down) := by
  have others : ∀ hash ∈ path store.parent down header.parentHash,
      store.routeHeader header hash =
        some ((store.block hash).getD header) := by
    intro hash member
    obtain ⟨step, fewer, rfl⟩ := mem_path.mp member
    have inRange := Nat.le_of_lt (Nat.lt_of_lt_of_le fewer enough)
    have known := rooted.tree.iterate_mem importable.parent_known inRange
    have heights := rooted.tree.height_iterate importable.parent_known inRange
    obtain ⟨found, block, -⟩ := rooted.block known
      (rooted.tree.ne_root_of_pos (by omega))
    rw [Store.routeHeader,
      if_neg (importable.ne_ancestor rooted inRange), block]
    rfl
  rw [List.mapM_cons, mapM_eq_some others, Store.routeHeader, if_pos rfl]
  rfl

/-- The caches are cleared if blocks leave the chain of the head. -/
theorem Rooted.reverted_eq (rooted : Rooted store) {up : Nat}
    (enough : up ≤ store.number store.lastBlockHash) :
    (if store.parent^[up] store.lastBlockHash = store.lastBlockHash then store
      else store.clearCachesDuringChainReversion
        ((store.number (store.parent^[up] store.lastBlockHash) + 1) %
          2 ^ 32)) = store.reverted up := by
  have heights := rooted.tree.height_iterate rooted.head_known enough
  have number := rooted.number_head
  have small := rooted.number_lt_invalid rooted.head_known
  rw [Store.reverted]
  by_cases none : up = 0
  · rw [if_pos none, none]
    exact if_pos rfl
  · have moved : store.parent^[up] store.lastBlockHash ≠
        store.lastBlockHash := by
      intro same
      rw [same] at heights
      omega
    have height : store.number (store.parent^[up] store.lastBlockHash) =
        store.lastBlockNumber - up := by omega
    rw [if_neg none, if_neg moved, height, Nat.mod_eq_of_lt]
    rw [c_invalidNumber] at small
    omega

section Inserting

variable [Hashing] {header : Header} {totalDifficulty : U256}

/-- What an import does. -/
theorem insert_cases (rooted : Rooted store)
    (importable : Importable store header totalDifficulty) :
    (store.isBest header totalDifficulty = some false ∧
      store.insertBlockAndExtras header totalDifficulty =
        some ({ goodTransactions := header.transactions },
          store.put header totalDifficulty)) ∨
    (store.isBest header totalDifficulty = some true ∧ ∃ up down,
      Meeting store.parent store.number store.lastBlockHash
        header.parentHash up down ∧
      store.insertBlockAndExtras header totalDifficulty =
        some ({ deadBlocks := path store.parent up store.lastBlockHash
                liveBlocks := (path store.parent down
                  header.parentHash).reverse ++ [header.hash]
                goodTransactions := header.transactions },
          store.adopt header totalDifficulty up down)) := by
  obtain ⟨last, found⟩ := rooted.block_head
  have isBest := @isBest_eq store header last totalDifficulty found
  generalize decide (Outweighs store.tieBreakingGas header totalDifficulty
    last (store.detailsOf store.lastBlockHash).totalDifficulty) = best
    at isBest
  cases best with
  | false =>
      refine .inl ⟨isBest, ?_⟩
      rw [Store.insertBlockAndExtras, isBest]
      rfl
  | true =>
      obtain ⟨up, down, treeRoute, meeting⟩ := rooted.treeRoute_meets
        rooted.head_known importable.parent_known true true true
      refine .inr ⟨isBest, up, down, meeting, ?_⟩
      have deadApart : ∀ hash ∈ path store.parent up store.lastBlockHash,
          hash ≠ store.parent^[up] store.lastBlockHash :=
        fun hash => rooted.ne_common rooted.head_known meeting.first_le
      have liveApart : ∀ hash ∈
          header.hash :: path store.parent down header.parentHash,
          hash ≠ store.parent^[up] store.lastBlockHash := by
        intro hash member
        rw [meeting.common]
        rcases List.mem_cons.mp member with rfl | inside
        · exact (importable.ne_ancestor rooted meeting.second_le).symm
        · exact rooted.ne_common importable.parent_known meeting.second_le
            inside
      have route : path store.parent up store.lastBlockHash ++
          [store.parent^[up] store.lastBlockHash] ++
          (path store.parent down header.parentHash).reverse ++
          [header.hash] = path store.parent up store.lastBlockHash ++
            store.parent^[up] store.lastBlockHash ::
              (header.hash :: path store.parent down
                header.parentHash).reverse := by
        simp
      have reversed : (path store.parent up store.lastBlockHash ++
            store.parent^[up] store.lastBlockHash ::
              (header.hash :: path store.parent down
                header.parentHash).reverse).reverse =
          (header.hash :: path store.parent down header.parentHash) ++
            store.parent^[up] store.lastBlockHash ::
              (path store.parent up store.lastBlockHash).reverse := by
        simp
      rw [Store.insertBlockAndExtras, isBest, treeRoute]
      simp only [Option.bind_eq_bind, Option.bind_some, if_true, true_and,
        true_or]
      rw [route, reversed, takeWhile_route liveApart,
        importable.mapM_routeHeader rooted meeting.second_le,
        rooted.reverted_eq meeting.first_le, Option.bind_some,
        importable.number_mod, Store.importRoute, takeWhile_route deadApart,
        dropWhile_route deadApart, List.filter_cons_of_neg (by simp),
        List.filter_eq_self.mpr]
      · rw [List.reverse_cons]
        rfl
      · intro hash member
        exact decide_eq_true (liveApart hash (List.mem_reverse.mp member))

end Inserting

/-! ## What changes -/

/-- Only the blooms differ. -/
def SameButBlooms (store store' : Store) : Prop :=
  store' = { store with blocksBlooms := store'.blocksBlooms }

theorem SameButBlooms.trans {store'' : Store}
    (first : SameButBlooms store store')
    (second : SameButBlooms store' store'') :
    SameButBlooms store store'' := by
  rw [SameButBlooms] at first second ⊢
  rw [second, first]

theorem sameButBlooms_foldl {Element : Type} {change : Store → Element → Store}
    (same : ∀ store element, SameButBlooms store (change store element))
    (list : List Element) (store : Store) :
    SameButBlooms store (list.foldl change store) := by
  induction list generalizing store with
  | nil => rfl
  | cons first rest induction => exact (same store first).trans (induction _)

theorem sameButBlooms_addBlooms (bloom : LogBloom) (levels : List Nat)
    (index : Nat) (store : Store) :
    SameButBlooms store (store.addBlooms bloom levels index) := by
  induction levels generalizing index store with
  | nil => rfl
  | cons level levels induction =>
      exact @SameButBlooms.trans _ (store.addBloom bloom level index) _ rfl
        (induction _ _)

theorem sameButBlooms_clearLevels (levels : List Nat) (first last : Nat)
    (store : Store) :
    SameButBlooms store (Store.clearLevels levels first last store) := by
  induction levels generalizing first last store with
  | nil => rfl
  | cons level levels induction =>
      rw [Store.clearLevels]
      refine SameButBlooms.trans ?_ (induction _ _ _)
      rw [Store.clearLevel]
      apply sameButBlooms_foldl
      intro store count
      rfl

/-- The hashes of some headers are written. -/
def storeHashes (headers : List Header) (extras : Extras Nat H256) :
    Extras Nat H256 :=
  headers.foldl (fun extras header => extras.store header.number header.hash)
    extras

theorem enter_eq [Hashing] (store : Store) (header : Header) :
    store.enter header = { store with
      blockHashes := store.blockHashes.store header.number header.hash
      transactionAddresses := (store.enter header).transactionAddresses
      blocksBlooms := (store.enter header).blocksBlooms } := by
  have same := sameButBlooms_addBlooms (Store.blockBloom header)
    (List.range c_bloomIndexLevels) (header.number % 2 ^ 32) store
  unfold Store.enter Store.addTransactions
  generalize store.addBlooms (Store.blockBloom header)
    (List.range c_bloomIndexLevels) (header.number % 2 ^ 32) = next at same ⊢
  rw [same]

theorem foldl_enter_eq [Hashing] (headers : List Header) (store : Store) :
    headers.foldl Store.enter store = { store with
      blockHashes := storeHashes headers store.blockHashes
      transactionAddresses :=
        (headers.foldl Store.enter store).transactionAddresses
      blocksBlooms := (headers.foldl Store.enter store).blocksBlooms } := by
  induction headers generalizing store with
  | nil => rfl
  | cons first rest induction =>
      rw [List.foldl_cons, induction, enter_eq]
      rfl

/-- Only the indexes differ. -/
def SameBlocks (store store' : Store) : Prop :=
  store' = { store with
    blockHashes := store'.blockHashes
    transactionAddresses := store'.transactionAddresses
    blocksBlooms := store'.blocksBlooms }

theorem sameBlocks_of_eq {blockHashes : Extras Nat H256}
    {transactionAddresses : Extras H256 TransactionAddress}
    {blocksBlooms : Extras Nat BlocksBlooms}
    (equal : store' =
      { store with blockHashes, transactionAddresses, blocksBlooms }) :
    SameBlocks store store' := by
  subst equal
  rfl

theorem clear_eq (store : Store) (firstInvalid : Nat) :
    store.clearCachesDuringChainReversion firstInvalid = { store with
      blockHashes := store.blockHashes.forget
        (List.range' firstInvalid (store.endNumber - firstInvalid))
      transactionAddresses :=
        { store.transactionAddresses with cached := fun _ => none }
      blocksBlooms := (store.clearCachesDuringChainReversion
        firstInvalid).blocksBlooms } := by
  unfold Store.clearCachesDuringChainReversion Store.clearBlockBlooms
  exact sameButBlooms_clearLevels _ _ _ _

theorem sameBlocks_reverted (store : Store) (up : Nat) :
    SameBlocks store (store.reverted up) := by
  unfold Store.reverted
  by_cases none : up = 0
  · rw [if_pos none]
    rfl
  · rw [if_neg none]
    exact sameBlocks_of_eq (clear_eq store _)

/-- A block was written; the indexes may differ as well. -/
structure Puts (header : Header) (totalDifficulty : U256)
    (store store' : Store) : Prop where
  genesis : store'.genesis = store.genesis
  tieBreakingGas : store'.tieBreakingGas = store.tieBreakingGas
  blocks : store'.blocks = Function.update store.blocks header.hash header
  details : store'.details = Function.update store.details header.hash
    (some ⟨header.number, totalDifficulty, header.parentHash⟩)

theorem Importable.puts {header : Header} {totalDifficulty : U256}
    (importable : Importable store header totalDifficulty) :
    Puts header totalDifficulty store (store.put header totalDifficulty) := by
  refine ⟨rfl, rfl, rfl, ?_⟩
  rw [Store.put, importable.number_mod]

theorem Importable.puts_adopt [Hashing] {header : Header}
    {totalDifficulty : U256}
    (importable : Importable store header totalDifficulty) (up down : Nat) :
    Puts header totalDifficulty store
      (store.adopt header totalDifficulty up down) := by
  have rest := sameBlocks_reverted store up
  have entered := foldl_enter_eq (store.entering header down)
    (store.reverted up)
  unfold Store.adopt Store.put
  generalize (store.entering header down).foldl Store.enter
    (store.reverted up) = next at entered ⊢
  generalize store.reverted up = cleared at rest entered
  rw [entered, rest]
  exact ⟨rfl, rfl, rfl, by simp only [importable.number_mod]⟩

namespace Puts

variable {header : Header} {totalDifficulty : U256}

theorem details_new (puts : Puts header totalDifficulty store store') :
    store'.details header.hash =
      some ⟨header.number, totalDifficulty, header.parentHash⟩ := by
  rw [puts.details, Function.update_self]

theorem details_known (puts : Puts header totalDifficulty store store')
    (importable : Importable store header totalDifficulty) {hash : H256}
    (known : Known store hash) : store'.details hash = store.details hash := by
  by_cases same : hash = header.hash
  · rw [same, puts.details_new]
    rw [same] at known
    exact (importable.again known).2.symm
  · rw [puts.details, Function.update_of_ne same]

theorem known (puts : Puts header totalDifficulty store store')
    {hash : H256} :
    Known store' hash ↔ hash = header.hash ∨ Known store hash := by
  rw [Known, puts.details]
  by_cases same : hash = header.hash
  · simp [same]
  · simp [same, Known]

theorem parent_known (puts : Puts header totalDifficulty store store')
    (importable : Importable store header totalDifficulty) {hash : H256}
    (known : Known store hash) : store'.parent hash = store.parent hash := by
  rw [Store.parent, Store.detailsOf, puts.details_known importable known]
  rfl

theorem number_known (puts : Puts header totalDifficulty store store')
    (importable : Importable store header totalDifficulty) {hash : H256}
    (known : Known store hash) : store'.number hash = store.number hash := by
  rw [Store.number, Store.detailsOf, puts.details_known importable known]
  rfl

theorem block_known (puts : Puts header totalDifficulty store store')
    (importable : Importable store header totalDifficulty) {hash : H256}
    (known : Known store hash) : store'.block hash = store.block hash := by
  rw [Store.block, Store.block, puts.genesis]
  split
  · rfl
  · by_cases same : hash = header.hash
    · rw [same] at known ⊢
      rw [puts.blocks, Function.update_self]
      exact (importable.again known).1.symm
    · rw [puts.blocks, Function.update_of_ne same]

theorem iterate_known (puts : Puts header totalDifficulty store store')
    (importable : Importable store header totalDifficulty)
    (rooted : Rooted store) {hash : H256} (known : Known store hash)
    {steps : Nat} (enough : steps ≤ store.number hash) :
    store'.parent^[steps] hash = store.parent^[steps] hash :=
  rooted.tree.iterate_congr (fun _ => puts.parent_known importable) known
    enough

theorem iterate_new (puts : Puts header totalDifficulty store store')
    (importable : Importable store header totalDifficulty)
    (rooted : Rooted store) {steps : Nat}
    (enough : steps ≤ store.number header.parentHash) :
    store'.parent^[steps + 1] header.hash =
      store.parent^[steps] header.parentHash := by
  rw [Function.iterate_succ_apply, Store.parent_eq puts.details_new]
  exact puts.iterate_known importable rooted importable.parent_known enough

theorem line_known (puts : Puts header totalDifficulty store store')
    (importable : Importable store header totalDifficulty)
    (rooted : Rooted store) {hash : H256} (known : Known store hash) :
    line store'.parent store'.number hash =
      line store.parent store.number hash := by
  rw [line, puts.number_known importable known, line]
  refine path_congr ?_
  intro step inRange
  exact puts.iterate_known importable rooted known
    (Nat.le_of_lt_succ inRange)

theorem line_new (puts : Puts header totalDifficulty store store')
    (importable : Importable store header totalDifficulty)
    (rooted : Rooted store) :
    line store'.parent store'.number header.hash =
      header.hash :: line store.parent store.number header.parentHash := by
  have parentLine := puts.line_known importable rooted
    importable.parent_known
  have number := importable.number_parent
  have parentNumber := puts.number_known importable importable.parent_known
  rw [← parentLine, line, Store.number_eq puts.details_new, path_succ,
    Store.parent_eq puts.details_new, line, parentNumber, ← number]

/-- The blocks are a tree as before, if the head is one of them. -/
theorem rooted (puts : Puts header totalDifficulty store store')
    (importable : Importable store header totalDifficulty)
    (rooted : Rooted store)
    (head : ∃ details, store'.details store'.lastBlockHash = some details ∧
      details.number = store'.lastBlockNumber) : Rooted store' := by
  have before : ∀ hash details, store'.details hash = some details →
      hash ≠ header.hash → store.details hash = some details := by
    intro hash details found other
    rwa [puts.details, Function.update_of_ne other] at found
  refine ⟨?_, ?_, ?_, ?_, head⟩
  · obtain ⟨details, found, number⟩ := rooted.genesis
    refine ⟨details, ?_, number⟩
    rw [puts.genesis, puts.details_known importable
      (by rw [Known, found]; rfl), found]
  · intro hash details found
    by_cases same : hash = header.hash
    · rw [same]
      exact importable.nonzero
    · exact rooted.nonzero hash details (before hash details found same)
  · intro hash details found
    by_cases same : hash = header.hash
    · rw [same, puts.details_new] at found
      cases found
      exact importable.number_lt
    · exact rooted.number_lt hash details (before hash details found same)
  · intro hash details found notGenesis
    by_cases same : hash = header.hash
    · rw [same, puts.details_new] at found
      cases found
      obtain ⟨above, aboveFound, number⟩ := importable.parent
      refine ⟨⟨above, ?_, number⟩, header, ?_, same.symm, rfl, rfl⟩
      · rw [puts.details_known importable importable.parent_known]
        exact aboveFound
      · rw [same, puts.blocks, Function.update_self]
    · rw [puts.genesis] at notGenesis
      obtain ⟨⟨above, aboveFound, number⟩, stored, block⟩ :=
        rooted.linked hash details (before hash details found same) notGenesis
      refine ⟨⟨above, ?_, number⟩, stored, ?_⟩
      · rw [puts.details_known importable (by rw [Known, aboveFound]; rfl)]
        exact aboveFound
      · rw [puts.blocks, Function.update_of_ne same]
        exact block

end Puts

/-! ## The number index -/

theorem cached_storeHashes (headers : List Header)
    (extras : Extras Nat H256) :
    (storeHashes headers extras).cached = extras.cached := by
  induction headers generalizing extras with
  | nil => rfl
  | cons first rest induction => exact induction _

theorem stored_storeHashes_other {headers : List Header} {number : Nat}
    (others : ∀ header ∈ headers, header.number ≠ number)
    (extras : Extras Nat H256) :
    (storeHashes headers extras).stored number = extras.stored number := by
  induction headers generalizing extras with
  | nil => rfl
  | cons first rest induction =>
      rw [storeHashes, List.foldl_cons]
      refine (induction (fun header member =>
        others header (List.mem_cons_of_mem _ member)) _).trans ?_
      exact Function.update_of_ne (others first List.mem_cons_self).symm _ _

/-- What was written last stays. -/
theorem stored_storeHashes {headers : List Header} {number : Nat}
    {hash : H256} (found : ∃ header ∈ headers, header.number = number)
    (same : ∀ header ∈ headers, header.number = number → header.hash = hash)
    (extras : Extras Nat H256) :
    (storeHashes headers extras).stored number = some hash := by
  induction headers generalizing extras with
  | nil =>
      obtain ⟨_, member, _⟩ := found
      cases member
  | cons first rest induction =>
      rw [storeHashes, List.foldl_cons]
      by_cases later : ∃ header ∈ rest, header.number = number
      · exact induction later (fun header member =>
          same header (List.mem_cons_of_mem _ member)) _
      · have others : ∀ header ∈ rest, header.number ≠ number :=
          fun header member equal => later ⟨header, member, equal⟩
        obtain ⟨header, member, equal⟩ := found
        rcases List.mem_cons.mp member with rfl | inRest
        · refine (stored_storeHashes_other others _).trans ?_
          rw [← equal, ← same header List.mem_cons_self equal]
          exact Function.update_self _ _ _
        · exact absurd equal (others header inRest)

/-- The blocks that enter are on the line of the new head. -/
theorem Puts.mem_entering {header : Header} {totalDifficulty : U256}
    (puts : Puts header totalDifficulty store store')
    (importable : Importable store header totalDifficulty)
    (rooted : Rooted store) {down : Nat}
    (enough : down ≤ store.number header.parentHash) {entered : Header}
    (member : entered ∈ store.entering header down) :
    store.number header.parentHash - down < entered.number ∧
      entered.number ≤ header.number ∧
      store'.parent^[header.number - entered.number] header.hash =
        entered.hash ∧
      store'.block entered.hash = some entered := by
  have number := importable.number_parent
  rcases List.mem_cons.mp member with rfl | inPath
  · refine ⟨by omega, le_rfl, ?_, ?_⟩
    · rw [Nat.sub_self]
      rfl
    · rw [Store.block, if_neg (by rw [puts.genesis]; exact
        importable.notGenesis), puts.blocks, Function.update_self]
  · obtain ⟨hash, onPath, rfl⟩ := List.mem_map.mp inPath
    obtain ⟨step, fewer, rfl⟩ := mem_path.mp onPath
    have inRange := Nat.le_of_lt (Nat.lt_of_lt_of_le fewer enough)
    have known := rooted.tree.iterate_mem importable.parent_known inRange
    have heights := rooted.tree.height_iterate importable.parent_known inRange
    obtain ⟨found, block, hashEq, numberEq⟩ := rooted.block known
      (rooted.tree.ne_root_of_pos (by omega))
    rw [block, Option.getD_some, hashEq, numberEq]
    refine ⟨by omega, by omega, ?_, ?_⟩
    · have steps : header.number - store.number
          (store.parent^[step] header.parentHash) = step + 1 := by omega
      rw [steps, puts.iterate_new importable rooted inRange]
    · rw [puts.block_known importable known, block]

theorem Importable.exists_entering {header : Header} {totalDifficulty : U256}
    (importable : Importable store header totalDifficulty)
    (rooted : Rooted store) {down number : Nat}
    (enough : down ≤ store.number header.parentHash)
    (above : store.number header.parentHash - down < number)
    (atMost : number ≤ header.number) :
    ∃ entered ∈ store.entering header down, entered.number = number := by
  have parentNumber := importable.number_parent
  by_cases last : number = header.number
  · exact ⟨header, List.mem_cons_self, last.symm⟩
  · have inRange : store.number header.parentHash - number ≤
        store.number header.parentHash := Nat.sub_le _ _
    have known := rooted.tree.iterate_mem importable.parent_known inRange
    have heights := rooted.tree.height_iterate importable.parent_known inRange
    obtain ⟨found, block, -, numberEq⟩ := rooted.block known
      (rooted.tree.ne_root_of_pos (by omega))
    have onPath : store.parent^[store.number header.parentHash - number]
        header.parentHash ∈ path store.parent down header.parentHash :=
      mem_path.mpr ⟨_, by omega, rfl⟩
    refine ⟨found, List.mem_cons_of_mem _ (List.mem_map.mpr
      ⟨_, onPath, ?_⟩), ?_⟩
    · rw [block, Option.getD_some]
    · omega

/-- The index follows the line of the head, and nothing above the head is in
the cache. -/
structure Indexed (store : Store) : Prop where
  stored : ∀ number, 0 < number → number ≤ store.lastBlockNumber →
    store.blockHashes.stored number = some (store.ancestorAt number)
  cached : ∀ number, number ≤ store.lastBlockNumber →
    store.blockHashes.cached number = none ∨
      store.blockHashes.cached number = some (store.ancestorAt number)
  above : ∀ number, store.lastBlockNumber < number →
    store.blockHashes.cached number = none

theorem Rooted.ancestorAt_zero (rooted : Rooted store) :
    store.ancestorAt 0 = store.genesis.hash := by
  rw [Store.ancestorAt, Nat.sub_zero, ← rooted.number_head]
  exact rooted.tree.iterate_height rooted.head_known

theorem Indexed.numberHash_eq (indexed : Indexed store)
    (rooted : Rooted store) {number : Nat}
    (atMost : number ≤ store.lastBlockNumber) :
    (store.numberHash number).1 = store.ancestorAt number := by
  unfold Store.numberHash
  by_cases zero : number = 0
  · rw [if_pos zero, zero, rooted.ancestorAt_zero]
  · rw [if_neg zero]
    have stored := indexed.stored number (Nat.pos_of_ne_zero zero) atMost
    rcases indexed.cached number atMost with none | some_
    · simp [Extras.query, none, stored]
    · simp [Extras.query, some_]

namespace Indexed

/-- Nothing changes that the index depends on. -/
theorem congr (indexed : Indexed store)
    (blockHashes : store'.blockHashes = store.blockHashes)
    (number : store'.lastBlockNumber = store.lastBlockNumber)
    (ancestors : ∀ height ≤ store.lastBlockNumber,
      store'.ancestorAt height = store.ancestorAt height) :
    Indexed store' := by
  refine ⟨?_, ?_, ?_⟩
  · intro height positive atMost
    rw [number] at atMost
    rw [blockHashes, ancestors height atMost]
    exact indexed.stored height positive atMost
  · intro height atMost
    rw [number] at atMost
    rw [blockHashes, ancestors height atMost]
    exact indexed.cached height atMost
  · intro height higher
    rw [number] at higher
    rw [blockHashes]
    exact indexed.above height higher

theorem put {header : Header} {totalDifficulty : U256}
    (indexed : Indexed store) (rooted : Rooted store)
    (importable : Importable store header totalDifficulty) :
    Indexed (store.put header totalDifficulty) := by
  refine indexed.congr rfl rfl ?_
  intro height atMost
  refine importable.puts.iterate_known importable rooted rooted.head_known ?_
  rw [rooted.number_head]
  exact Nat.sub_le _ _

/-- Above the common block the cache is empty. -/
theorem reverted (indexed : Indexed store) (rooted : Rooted store) {up : Nat}
    (few : up ≤ store.lastBlockNumber) :
    (store.reverted up).blockHashes.stored = store.blockHashes.stored ∧
      (∀ height, height + up ≤ store.lastBlockNumber →
        (store.reverted up).blockHashes.cached height =
          store.blockHashes.cached height) ∧
      ∀ height, store.lastBlockNumber < height + up →
        (store.reverted up).blockHashes.cached height = none := by
  have small := rooted.number_lt_invalid rooted.head_known
  rw [rooted.number_head] at small
  unfold Store.reverted
  by_cases none : up = 0
  · rw [if_pos none, none]
    exact ⟨rfl, fun _ _ => rfl, indexed.above⟩
  · rw [if_neg none, clear_eq]
    have last : store.endNumber = store.lastBlockNumber + 1 := by
      apply Nat.mod_eq_of_lt
      rw [c_invalidNumber] at small
      omega
    refine ⟨rfl, ?_, ?_⟩
    · intro height low
      refine if_neg ?_
      rw [List.mem_range'_1, last]
      omega
    · intro height high
      by_cases inRange : height ≤ store.lastBlockNumber
      · refine if_pos ?_
        rw [List.mem_range'_1, last]
        omega
      · show ite _ _ _ = _
        rw [indexed.above height (by omega), ite_self]

/-- Up to the common block, the lines of both heads are the same. -/
theorem ancestorAt_adopt [Hashing] {header : Header} {totalDifficulty : U256}
    (rooted : Rooted store)
    (importable : Importable store header totalDifficulty) {up down : Nat}
    (meeting : Meeting store.parent store.number store.lastBlockHash
      header.parentHash up down) {height : Nat}
    (below : height + up ≤ store.lastBlockNumber) :
    (store.adopt header totalDifficulty up down).ancestorAt height =
      store.ancestorAt height := by
  have puts := importable.puts_adopt up down
  have number := importable.number_parent
  have headNumber := rooted.number_head
  have heights := rooted.tree.height_iterate rooted.head_known
    meeting.first_le
  have downHeights := rooted.tree.height_iterate importable.parent_known
    meeting.second_le
  rw [meeting.common] at heights
  have steps : header.number - height =
      (store.number header.parentHash - height) + 1 := by omega
  have same := rooted.tree.iterate_of_meeting rooted.head_known
    importable.parent_known meeting (show height + up ≤ _ by omega)
  rw [headNumber] at same
  show (store.adopt header totalDifficulty up down).parent^[
    header.number - height] header.hash = _
  rw [steps, puts.iterate_new importable rooted (Nat.sub_le _ _), ← same]
  rfl

theorem adopt [Hashing] {header : Header} {totalDifficulty : U256}
    (indexed : Indexed store) (rooted : Rooted store)
    (importable : Importable store header totalDifficulty) {up down : Nat}
    (meeting : Meeting store.parent store.number store.lastBlockHash
      header.parentHash up down) :
    Indexed (store.adopt header totalDifficulty up down) := by
  have puts := importable.puts_adopt up down
  have number := importable.number_parent
  have headNumber := rooted.number_head
  have upFew := meeting.first_le
  have heights := rooted.tree.height_iterate rooted.head_known upFew
  have downHeights := rooted.tree.height_iterate importable.parent_known
    meeting.second_le
  rw [meeting.common] at heights
  have low : ∀ height, height + up ≤ store.lastBlockNumber →
      (store.adopt header totalDifficulty up down).ancestorAt height =
        store.ancestorAt height :=
    fun height => ancestorAt_adopt rooted importable meeting
  have blockHashes : (store.adopt header totalDifficulty up down).blockHashes =
      storeHashes (store.entering header down)
        (store.reverted up).blockHashes := by
    have entered := foldl_enter_eq (store.entering header down)
      (store.reverted up)
    unfold Store.adopt Store.put
    generalize (store.entering header down).foldl Store.enter
      (store.reverted up) = next at entered ⊢
    rw [entered]
  obtain ⟨revertedStored, revertedLow, revertedHigh⟩ :=
    indexed.reverted rooted (headNumber ▸ upFew)
  refine ⟨?_, ?_, ?_⟩
  · intro height positive atMost
    change height ≤ header.number at atMost
    rw [blockHashes]
    by_cases below : height + up ≤ store.lastBlockNumber
    · rw [stored_storeHashes_other, revertedStored, low height below]
      · exact indexed.stored height positive (by omega)
      · intro entered member same
        have range := puts.mem_entering importable rooted meeting.second_le
          member
        omega
    · apply stored_storeHashes
      · exact importable.exists_entering rooted meeting.second_le (by omega)
          atMost
      · intro entered member same
        have onLine := (puts.mem_entering importable rooted meeting.second_le
          member).2.2.1
        rw [same] at onLine
        exact onLine.symm
  · intro height atMost
    rw [blockHashes, cached_storeHashes]
    by_cases below : height + up ≤ store.lastBlockNumber
    · rw [revertedLow height below, low height below]
      exact indexed.cached height (by omega)
    · exact .inl (revertedHigh height (by omega))
  · intro height higher
    change header.number < height at higher
    rw [blockHashes, cached_storeHashes]
    exact revertedHigh height (by omega)

end Indexed

end BlockChain

end Aecmio
