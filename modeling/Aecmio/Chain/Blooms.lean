import Aecmio.Chain.ForkChoice

/-!
# Log search

A slot of level zero holds the blooms of one number, a slot of level one those
of sixteen numbers.  When blocks leave the chain of the head, their slots are
cleared and the slots above are put together again; when blocks enter it,
their blooms are added.  So the slots of a number always contain the bloom of
the block that has it, and a search does not miss the block.
-/

namespace Aecmio

/-! ## Bloom filters -/

theorem FixedHash.contains_iff {size : Nat} {first second : FixedHash size} :
    first.contains second ↔ ∀ index < size,
      first.val.getD index 0 &&& second.val.getD index 0 =
        second.val.getD index 0 := by
  have firstLength := first.property
  have secondLength := second.property
  rw [FixedHash.contains, decide_eq_true_eq]
  constructor
  · intro same index inside
    have here := congrArg (fun bytes => bytes.getD index 0) same
    simpa [List.getD_eq_getElem?_getD, List.getElem?_zipWith,
      List.getElem?_eq_getElem, firstLength, secondLength, inside] using here
  · intro same
    apply List.ext_getElem
    · rw [List.length_zipWith, firstLength, secondLength, min_self]
    · intro index left right
      have here := same index (by rw [← secondLength]; exact right)
      simpa [List.getD_eq_getElem?_getD, List.getElem?_eq_getElem,
        firstLength, secondLength, secondLength ▸ right] using here

theorem FixedHash.getD_union {size : Nat} (first second : FixedHash size)
    {index : Nat} (inside : index < size) :
    (first.union second).val.getD index 0 =
      first.val.getD index 0 ||| second.val.getD index 0 := by
  have firstLength := first.property
  have secondLength := second.property
  simp [FixedHash.union, List.getD_eq_getElem?_getD, List.getElem?_zipWith,
    List.getElem?_eq_getElem, firstLength, secondLength, inside]

theorem byte_or_and {first second part : UInt8}
    (contains : first &&& part = part) :
    (first ||| second) &&& part = part := by
  apply UInt8.toBitVec_inj.mp
  ext index inside
  have bit := congrArg (fun byte => byte.toBitVec[index]) contains
  simp at bit ⊢
  grind

namespace FixedHash

variable {size : Nat} {first second third : FixedHash size}

theorem contains_refl (first : FixedHash size) : first.contains first := by
  rw [contains_iff]
  intro index _
  exact UInt8.and_self

theorem contains_trans (above : first.contains second)
    (below : second.contains third) : first.contains third := by
  rw [contains_iff] at above below ⊢
  intro index inside
  have middle := below index inside
  rw [← middle, ← UInt8.and_assoc, above index inside]

theorem contains_union_left (contains : first.contains third) :
    (first.union second).contains third := by
  rw [contains_iff] at contains ⊢
  intro index inside
  rw [getD_union first second inside]
  exact byte_or_and (contains index inside)

theorem contains_union_right (contains : second.contains third) :
    (first.union second).contains third := by
  rw [contains_iff] at contains ⊢
  intro index inside
  rw [getD_union first second inside, UInt8.or_comm]
  exact byte_or_and (contains index inside)

theorem contains_foldl {list : List (FixedHash size)}
    (start : FixedHash size)
    (contains : start.contains third ∨ ∃ part ∈ list, part.contains third) :
    (list.foldl union start).contains third := by
  induction list generalizing start with
  | nil => exact contains.resolve_right nofun
  | cons part rest induction =>
      apply induction
      rcases contains with inStart | ⟨other, member, inOther⟩
      · exact .inl (contains_union_left inStart)
      · rcases List.mem_cons.mp member with rfl | inRest
        · exact .inl (contains_union_right inOther)
        · exact .inr ⟨other, inRest, inOther⟩

end FixedHash

namespace BlockChain

open Ancestry

variable {store store' : Store}

/-! ## Slots -/

/-- One past the block numbers for which the chunks have different ids. -/
def bloomRange : Nat := 2 ^ 28

/-- The bloom of a number at a level. -/
def Store.slot (store : Store) (level index : Nat) : LogBloom :=
  store.blooms (Store.chunkId level (index / c_bloomIndexSize))
    (Store.offset index)

theorem chunkId_inj {level level' index index' : Nat} (low : level < 2)
    (low' : level' < 2) (inRange : index < bloomRange)
    (inRange' : index' < bloomRange)
    (same : Store.chunkId level (index / c_bloomIndexSize) =
      Store.chunkId level' (index' / c_bloomIndexSize)) :
    level = level' ∧ index / c_bloomIndexSize =
      index' / c_bloomIndexSize := by
  unfold Store.chunkId at same
  unfold c_bloomIndexSize at same ⊢
  unfold bloomRange at inRange inRange'
  rw [Nat.mod_eq_of_lt (by omega), Nat.mod_eq_of_lt (by omega)] at same
  omega

theorem slot_ext {level level' index index' : Nat} (low : level < 2)
    (low' : level' < 2) (inRange : index < bloomRange)
    (inRange' : index' < bloomRange)
    (sameChunk : Store.chunkId level (index / c_bloomIndexSize) =
      Store.chunkId level' (index' / c_bloomIndexSize))
    (sameOffset : Store.offset index = Store.offset index') :
    level = level' ∧ index = index' := by
  obtain ⟨sameLevel, quotient⟩ :=
    chunkId_inj low low' inRange inRange' sameChunk
  have remainder : index % c_bloomIndexSize = index' % c_bloomIndexSize :=
    congrArg Fin.val sameOffset
  refine ⟨sameLevel, ?_⟩
  rw [← Nat.div_add_mod index c_bloomIndexSize, quotient, remainder,
    Nat.div_add_mod]

/-- One slot is set. -/
theorem slot_of_set {level level' index index' : Nat} {bloom : LogBloom}
    (low : level < 2) (low' : level' < 2) (inRange : index < bloomRange)
    (inRange' : index' < bloomRange)
    (set : ∀ id, store'.blooms id =
      if id = Store.chunkId level (index / c_bloomIndexSize) then
        Function.update (store.blooms id) (Store.offset index) bloom
      else store.blooms id) :
    store'.slot level' index' =
      if level' = level ∧ index' = index then bloom
      else store.slot level' index' := by
  unfold Store.slot
  rw [set]
  by_cases here : level' = level ∧ index' = index
  · obtain ⟨rfl, rfl⟩ := here
    rw [if_pos rfl, if_pos ⟨rfl, rfl⟩, Function.update_self]
  · rw [if_neg here]
    split
    · rename_i sameChunk
      apply Function.update_of_ne
      intro sameOffset
      exact here (slot_ext low' low inRange' inRange sameChunk sameOffset)
    · rfl

theorem blooms_clearBloom (store : Store) (level item id : Nat) :
    (store.clearBloom level item).blooms id =
      if id = Store.chunkId level (item / c_bloomIndexSize) then
        Function.update (store.blooms id) (Store.offset item)
          (store.rebuiltBloom level item)
      else store.blooms id := by
  unfold Store.clearBloom Store.blooms Extras.cache Extras.read
  by_cases here : id = Store.chunkId level (item / c_bloomIndexSize)
  · simp [here, Store.blooms, Extras.read]
  · simp [here]

theorem blooms_addBloom (store : Store) (bloom : LogBloom)
    (level index id : Nat) :
    (store.addBloom bloom level index).blooms id =
      if id = Store.chunkId level (index / c_bloomIndexSize) then
        Function.update (store.blooms id) (Store.offset index)
          ((store.slot level index).union bloom)
      else store.blooms id := by
  unfold Store.addBloom Store.slot Store.blooms Extras.cache Extras.store
    Extras.read
  by_cases here : id = Store.chunkId level (index / c_bloomIndexSize)
  · simp [here, Store.blooms, Extras.read]
  · simp [here]

/-- A rebuilt slot contains the slots below it. -/
theorem rebuiltBloom_contains (store : Store) {item index : Nat}
    (below : index / c_bloomIndexSize = item) {bloom : LogBloom}
    (contains : (store.slot 0 index).contains bloom) :
    (store.rebuiltBloom 1 item).contains bloom := by
  unfold Store.rebuiltBloom
  rw [if_neg (by decide)]
  apply FixedHash.contains_foldl
  refine .inr ⟨store.slot 0 index, ?_, contains⟩
  rw [List.mem_ofFn]
  refine ⟨Store.offset index, ?_⟩
  rw [Store.slot, below]

theorem slot_clearBloom (store : Store) {level level' item index : Nat}
    (low : level < 2) (low' : level' < 2) (inRange : item < bloomRange)
    (inRange' : index < bloomRange) :
    (store.clearBloom level item).slot level' index =
      if level' = level ∧ index = item then store.rebuiltBloom level item
      else store.slot level' index :=
  slot_of_set low low' inRange inRange' (blooms_clearBloom store level item)

theorem slot_addBloom (store : Store) (bloom : LogBloom)
    {level level' index index' : Nat} (low : level < 2) (low' : level' < 2)
    (inRange : index < bloomRange) (inRange' : index' < bloomRange) :
    (store.addBloom bloom level index).slot level' index' =
      if level' = level ∧ index' = index then
        (store.slot level index).union bloom
      else store.slot level' index' :=
  slot_of_set low low' inRange inRange' (blooms_addBloom store bloom level index)

/-! ## Blocks that leave -/

/-- Slots that are not cleared stay. -/
theorem slot_foldl_clearBloom {level level' index : Nat} (low : level < 2)
    (low' : level' < 2) (inRange : index < bloomRange)
    {items : List Nat} (small : ∀ item ∈ items, item < bloomRange)
    (other : level' = level → index ∉ items) (store : Store) :
    (items.foldl (fun store item => store.clearBloom level item) store).slot
      level' index = store.slot level' index := by
  induction items generalizing store with
  | nil => rfl
  | cons item rest induction =>
      rw [List.foldl_cons, induction (fun item member =>
          small item (List.mem_cons_of_mem _ member))
        (fun same member => other same (List.mem_cons_of_mem _ member)),
        slot_clearBloom store low low' (small item List.mem_cons_self)
          inRange, if_neg]
      rintro ⟨same, rfl⟩
      exact other same List.mem_cons_self

/-- Slots that are put together again contain what is below them. -/
theorem slot_foldl_rebuilt {item index : Nat}
    (below : index / c_bloomIndexSize = item) (inRange : index < bloomRange)
    {items : List Nat} (small : ∀ item ∈ items, item < bloomRange)
    {bloom : LogBloom} {store : Store}
    (contains : (store.slot 0 index).contains bloom)
    (here : item ∈ items ∨ (store.slot 1 item).contains bloom) :
    ((items.foldl (fun store item => store.clearBloom 1 item) store).slot 1
      item).contains bloom := by
  have itemInRange : item < bloomRange := by
    rw [← below]
    exact lt_of_le_of_lt (Nat.div_le_self _ _) inRange
  induction items generalizing store with
  | nil => exact here.resolve_left nofun
  | cons first rest induction =>
      have firstSmall := small first List.mem_cons_self
      apply induction fun item member =>
        small item (List.mem_cons_of_mem _ member)
      · rw [slot_clearBloom store (by decide) (by decide) firstSmall inRange,
          if_neg (by rintro ⟨absurd, -⟩; cases absurd)]
        exact contains
      · rw [slot_clearBloom store (by decide) (by decide) firstSmall
          itemInRange]
        by_cases same : item = first
        · rw [if_pos ⟨rfl, same⟩, ← same]
          exact .inr (rebuiltBloom_contains store below contains)
        · rw [if_neg fun both => same both.2]
          exact here.imp_left fun member =>
            (List.mem_cons.mp member).resolve_left same

/-- The slots of a number contain a bloom. -/
structure Covers (store : Store) (index : Nat) (bloom : LogBloom) : Prop where
  fine : (store.slot 0 index).contains bloom
  coarse : (store.slot 1 (index / c_bloomIndexSize)).contains bloom

theorem clearLevel_eq {level first last : Nat} (order : first ≤ last)
    (inRange : last < 2 ^ 32) (store : Store) :
    store.clearLevel level first last =
      (List.range' first (last - first)).foldl
        (fun store item => store.clearBloom level item) store := by
  have count : (last + (2 ^ 32 - first)) % 2 ^ 32 = last - first := by omega
  rw [Store.clearLevel, count, List.range'_eq_map_range, List.foldl_map]
  refine List.foldl_ext _ _ _ ?_
  intro store count member
  rw [List.mem_range] at member
  rw [Nat.mod_eq_of_lt (by omega)]

/-- Numbers below those that are cleared keep their blooms. -/
theorem Covers.clear {index first last : Nat} {bloom : LogBloom}
    (covers : Covers store index bloom) (below : index < first)
    (order : first < last) (inRange : last ≤ bloomRange) :
    Covers (store.clearBlockBlooms first last) index bloom := by
  have range : bloomRange = 2 ^ 28 := rfl
  have firstInRange : index < bloomRange := by omega
  have coarseInRange : index / c_bloomIndexSize < bloomRange :=
    lt_of_le_of_lt (Nat.div_le_self _ _) firstInRange
  have above : Store.endAbove last = (last - 1) / c_bloomIndexSize + 1 := by
    have before : (last + (2 ^ 32 - 1)) % 2 ^ 32 = last - 1 := by omega
    rw [Store.endAbove, before]
  have coarseOrder : first / c_bloomIndexSize ≤
      (last - 1) / c_bloomIndexSize :=
    Nat.div_le_div_right (by omega)
  have coarseLast : (last - 1) / c_bloomIndexSize ≤ last - 1 :=
    Nat.div_le_self _ _
  have levels : store.clearBlockBlooms first last =
      (store.clearLevel 0 first last).clearLevel 1 (first / c_bloomIndexSize)
        (Store.endAbove last) := rfl
  have fineLevel := @clearLevel_eq 0 first last (by omega) (by omega) store
  rw [levels, above, fineLevel, clearLevel_eq (by omega) (by omega)]
  have smallFine : ∀ item ∈ List.range' first (last - first),
      item < bloomRange := by
    intro item member
    rw [List.mem_range'_1] at member
    omega
  have smallCoarse : ∀ item ∈ List.range' (first / c_bloomIndexSize)
      ((last - 1) / c_bloomIndexSize + 1 - first / c_bloomIndexSize),
      item < bloomRange := by
    intro item member
    rw [List.mem_range'_1] at member
    omega
  have fine : (((List.range' first (last - first)).foldl
      (fun store item => store.clearBloom 0 item) store).slot 0
        index).contains bloom := by
    rw [slot_foldl_clearBloom (by decide) (by decide) firstInRange smallFine]
    · exact covers.fine
    · intro _ member
      rw [List.mem_range'_1] at member
      omega
  constructor
  · rw [@slot_foldl_clearBloom 1 0 index (by decide) (by decide)
      firstInRange _ smallCoarse nofun]
    exact fine
  · refine slot_foldl_rebuilt rfl firstInRange smallCoarse fine (.inr ?_)
    rw [@slot_foldl_clearBloom 0 1 _ (by decide) (by decide) coarseInRange _
      smallFine nofun]
    exact covers.coarse

/-! ## Blocks that enter -/

/-- Adding a bloom keeps what the slots contain. -/
theorem slot_addBloom_contains {level level' index index' : Nat}
    (low : level < 2) (low' : level' < 2) (inRange : index < bloomRange)
    (inRange' : index' < bloomRange) {bloom added : LogBloom}
    (contains : (store.slot level' index').contains bloom) :
    ((store.addBloom added level index).slot level' index').contains
      bloom := by
  rw [slot_addBloom store added low low' inRange inRange']
  split
  · rename_i same
    obtain ⟨rfl, rfl⟩ := same
    exact FixedHash.contains_union_left contains
  · exact contains

theorem enter_blooms [Hashing] (store : Store) {header : Header}
    (inRange : header.number < bloomRange) (id : Nat) :
    (store.enter header).blooms id =
      ((store.addBloom (Store.blockBloom header) 0 header.number).addBloom
        (Store.blockBloom header) 1
        (header.number / c_bloomIndexSize)).blooms id := by
  have number : header.number % 2 ^ 32 = header.number :=
    Nat.mod_eq_of_lt (lt_trans inRange (by decide))
  rw [Store.enter, number]
  rfl

theorem Covers.enter [Hashing] {index : Nat} {bloom : LogBloom}
    (covers : Covers store index bloom) (indexInRange : index < bloomRange)
    {header : Header} (inRange : header.number < bloomRange) :
    Covers (store.enter header) index bloom := by
  have coarse : header.number / c_bloomIndexSize < bloomRange :=
    lt_of_le_of_lt (Nat.div_le_self _ _) inRange
  have indexCoarse : index / c_bloomIndexSize < bloomRange :=
    lt_of_le_of_lt (Nat.div_le_self _ _) indexInRange
  constructor
  · rw [Store.slot, enter_blooms store inRange]
    exact slot_addBloom_contains (by decide) (by decide) coarse indexInRange
      (slot_addBloom_contains (by decide) (by decide) inRange indexInRange
        covers.fine)
  · rw [Store.slot, enter_blooms store inRange]
    exact slot_addBloom_contains (by decide) (by decide) coarse indexCoarse
      (slot_addBloom_contains (by decide) (by decide) inRange indexCoarse
        covers.coarse)

theorem covers_entered [Hashing] (store : Store) {header : Header}
    (inRange : header.number < bloomRange) :
    Covers (store.enter header) header.number
      (Store.blockBloom header) := by
  have coarse : header.number / c_bloomIndexSize < bloomRange :=
    lt_of_le_of_lt (Nat.div_le_self _ _) inRange
  constructor
  · rw [Store.slot, enter_blooms store inRange]
    refine slot_addBloom_contains (by decide) (by decide) coarse inRange ?_
    rw [slot_addBloom store _ (by decide) (by decide) inRange inRange,
      if_pos ⟨rfl, rfl⟩]
    exact FixedHash.contains_union_right (FixedHash.contains_refl _)
  · rw [Store.slot, enter_blooms store inRange]
    show (Store.slot _ 1 (header.number / c_bloomIndexSize)).contains _
    rw [slot_addBloom _ _ (by decide) (by decide) coarse coarse,
      if_pos ⟨rfl, rfl⟩]
    exact FixedHash.contains_union_right (FixedHash.contains_refl _)

theorem Covers.enterAll [Hashing] {index : Nat} {bloom : LogBloom}
    (indexInRange : index < bloomRange) {headers : List Header}
    (inRange : ∀ header ∈ headers, header.number < bloomRange)
    (covers : Covers store index bloom ∨ ∃ header ∈ headers,
      header.number = index ∧ Store.blockBloom header = bloom) :
    Covers (headers.foldl Store.enter store) index bloom := by
  induction headers generalizing store with
  | nil => exact covers.resolve_right nofun
  | cons header rest induction =>
      have here := inRange header List.mem_cons_self
      apply induction fun other member =>
        inRange other (List.mem_cons_of_mem _ member)
      rcases covers with before | ⟨other, member, number, same⟩
      · exact .inl (before.enter indexInRange here)
      · rcases List.mem_cons.mp member with rfl | inRest
        · subst number same
          exact .inl (covers_entered store here)
        · exact .inr ⟨other, inRest, number, same⟩

/-! ## Runs -/

theorem Covers.congr {index : Nat} {bloom : LogBloom}
    (covers : Covers store index bloom)
    (same : store'.blocksBlooms = store.blocksBlooms) :
    Covers store' index bloom := by
  have blooms : ∀ level index, store'.slot level index =
      store.slot level index := by
    intro level index
    rw [Store.slot, Store.blooms, same]
    rfl
  exact ⟨by rw [blooms]; exact covers.fine, by rw [blooms]; exact covers.coarse⟩

theorem Covers.clearCaches {index first : Nat} {bloom : LogBloom}
    (covers : Covers store index bloom) (below : index < first)
    (order : first ≤ store.lastBlockNumber)
    (inRange : store.lastBlockNumber < bloomRange) :
    Covers (store.clearCachesDuringChainReversion first) index bloom := by
  have last : store.endNumber = store.lastBlockNumber + 1 := by
    apply Nat.mod_eq_of_lt
    rw [bloomRange] at inRange
    omega
  unfold Store.clearCachesDuringChainReversion
  rw [last]
  refine Covers.clear ?_ below (by omega) (by omega)
  exact covers.congr rfl

theorem Covers.reverted {index up : Nat} {bloom : LogBloom}
    (covers : Covers store index bloom)
    (below : index + up ≤ store.lastBlockNumber)
    (inRange : store.lastBlockNumber < bloomRange) :
    Covers (store.reverted up) index bloom := by
  unfold Store.reverted
  by_cases none : up = 0
  · rw [if_pos none]
    exact covers
  · rw [if_neg none]
    exact covers.clearCaches (by omega) (by omega) inRange

/-- The slots of each number contain the bloom of its block. -/
structure Searchable [Hashing] (store : Store) : Prop where
  canonical : Canonical store
  number_lt : ∀ hash, Known store hash → store.number hash < bloomRange
  covers : ∀ number, 0 < number → number ≤ store.lastBlockNumber →
    ∀ header, store.block (store.ancestorAt number) = some header →
      Covers store number (Store.blockBloom header)

namespace Searchable

variable [Hashing] {header : Header} {totalDifficulty : U256}

theorem last_lt (searchable : Searchable store) :
    store.lastBlockNumber < bloomRange := by
  have rooted := searchable.canonical.rooted
  rw [← rooted.number_head]
  exact searchable.number_lt _ rooted.head_known

theorem ancestorAt_known (searchable : Searchable store) {number : Nat} :
    Known store (store.ancestorAt number) := by
  have rooted := searchable.canonical.rooted
  refine rooted.tree.iterate_mem rooted.head_known ?_
  rw [rooted.number_head]
  exact Nat.sub_le _ _

theorem numbers (searchable : Searchable store)
    (importable : Importable store header totalDifficulty)
    (inRange : header.number < bloomRange)
    (puts : Puts header totalDifficulty store store') :
    ∀ hash, Known store' hash → store'.number hash < bloomRange := by
  intro hash known
  rcases puts.known.mp known with rfl | old
  · rw [Store.number_eq puts.details_new]
    exact inRange
  · rw [puts.number_known importable old]
    exact searchable.number_lt hash old

theorem insert (searchable : Searchable store)
    (importable : Importable store header totalDifficulty)
    (inRange : header.number < bloomRange) :
    ∃ route next,
      store.insertBlockAndExtras header totalDifficulty =
        some (route, next) ∧ Searchable next := by
  have rooted := searchable.canonical.rooted
  have lastInRange := searchable.last_lt
  obtain ⟨route, next, inserted, canonical, puts⟩ :=
    searchable.canonical.insert importable
  have numbers := searchable.numbers importable inRange puts
  refine ⟨route, next, inserted, canonical, numbers, ?_⟩
  rcases insert_cases rooted importable with
    ⟨-, same⟩ | ⟨-, up, down, meeting, same⟩
  · cases inserted.symm.trans same
    intro number positive atMost found block
    have ancestor : (store.put header totalDifficulty).ancestorAt number =
        store.ancestorAt number := by
      refine puts.iterate_known importable rooted rooted.head_known ?_
      rw [rooted.number_head]
      exact Nat.sub_le _ _
    rw [ancestor, puts.block_known importable searchable.ancestorAt_known]
      at block
    exact (searchable.covers number positive atMost found block).congr rfl
  · cases inserted.symm.trans same
    intro number positive atMost found block
    change number ≤ header.number at atMost
    have entered : Covers ((store.entering header down).foldl Store.enter
        (store.reverted up)) number (Store.blockBloom found) := by
      refine Covers.enterAll (lt_of_le_of_lt atMost inRange) ?_ ?_
      · intro other member
        exact lt_of_le_of_lt (puts.mem_entering importable rooted
          meeting.second_le member).2.1 inRange
      · by_cases below : number + up ≤ store.lastBlockNumber
        · rw [Indexed.ancestorAt_adopt rooted importable meeting below,
            puts.block_known importable searchable.ancestorAt_known] at block
          exact .inl ((searchable.covers number positive (by omega) found
            block).reverted below lastInRange)
        · have heights := rooted.tree.height_iterate rooted.head_known
            meeting.first_le
          have downHeights := rooted.tree.height_iterate
            importable.parent_known meeting.second_le
          rw [meeting.common, rooted.number_head] at heights
          obtain ⟨other, member, numberEq⟩ := importable.exists_entering
            rooted meeting.second_le (by omega) atMost
          obtain ⟨-, -, onLine, stored⟩ := puts.mem_entering importable rooted
            meeting.second_le member
          rw [numberEq] at onLine
          have ancestor : (store.adopt header totalDifficulty up
              down).ancestorAt number = other.hash := onLine
          rw [ancestor, stored] at block
          cases block
          exact .inr ⟨_, member, numberEq, rfl⟩
    exact entered.congr rfl

theorem rewind (searchable : Searchable store) (newHead : Nat) :
    Searchable (store.rewind newHead) := by
  by_cases none : store.lastBlockNumber ≤ newHead
  · rw [Store.rewind, if_pos none]
    exact searchable
  have low : newHead < store.lastBlockNumber := Nat.lt_of_not_le none
  have canonical := searchable.canonical.rewind newHead
  have rewound := searchable.canonical.rewind_eq low
  generalize store.rewind newHead = next at canonical rewound ⊢
  have details : next.details = store.details := by rw [rewound]
  refine ⟨canonical, ?_, ?_⟩
  · intro hash known
    rw [Known, details] at known
    rw [Store.number, Store.detailsOf, details]
    exact searchable.number_lt hash known
  · intro number positive atMost found block
    have last : next.lastBlockNumber = newHead := by rw [rewound]
    rw [last] at atMost
    have ancestor : next.ancestorAt number = store.ancestorAt number := by
      have head : next.lastBlockHash = store.ancestorAt newHead := by
        rw [rewound]
      rw [Store.ancestorAt, head, last, parent_congr details,
        Store.ancestorAt, ← Function.iterate_add_apply, Store.ancestorAt]
      congr 1
      omega
    have blockSame : next.block (store.ancestorAt number) =
        store.block (store.ancestorAt number) := by
      rw [rewound]
      rfl
    rw [ancestor, blockSame] at block
    have covers := searchable.covers number positive (by omega) found block
    have below : number + (store.lastBlockNumber - newHead) ≤
        store.lastBlockNumber := by omega
    refine (covers.reverted below searchable.last_lt).congr ?_
    rw [rewound]

end Searchable

/-! ## Searching -/

theorem offset_mod (index : Nat) :
    Store.offset (index % c_bloomIndexSize) = Store.offset index :=
  Fin.ext (Nat.mod_mod _ _)

/-- A number is found in its chunk of level zero. -/
theorem mem_fine {bloom : LogBloom} {earliest latest number : Nat}
    (inRange : number < bloomRange) (from_ : earliest ≤ number)
    (upTo : number ≤ latest)
    (contains : (store.slot 0 number).contains bloom) :
    number ∈ store.withBlockBloomIn bloom earliest latest 0
      (number / c_bloomIndexSize) := by
  have course : Store.upow c_bloomIndexSize 1 = c_bloomIndexSize := rfl
  have fine : Store.upow c_bloomIndexSize 0 = 1 := rfl
  simp only [Store.withBlockBloomIn, course, fine, Nat.zero_add, Nat.div_one]
  refine List.mem_map.mpr ⟨number % c_bloomIndexSize, ?_, ?_⟩
  · rw [List.mem_filter, offset_mod, List.mem_range'_1]
    refine ⟨?_, contains⟩
    have bound : number % c_bloomIndexSize < c_bloomIndexSize :=
      Nat.mod_lt _ (by decide)
    unfold c_bloomIndexSize at bound ⊢
    split <;> split <;> omega
  · unfold c_bloomIndexSize
    unfold bloomRange at inRange
    omega

/-- A number is found below its chunk of level one. -/
theorem mem_coarse {bloom : LogBloom} {earliest latest number : Nat}
    (inRange : number < bloomRange) (from_ : earliest ≤ number)
    (upTo : number ≤ latest) (covers : Covers store number bloom) :
    number ∈ store.withBlockBloomIn bloom earliest latest 1
      (number / c_bloomIndexSize / c_bloomIndexSize) := by
  have course : Store.upow c_bloomIndexSize 2 =
      c_bloomIndexSize * c_bloomIndexSize := rfl
  have fine : Store.upow c_bloomIndexSize 1 = c_bloomIndexSize := rfl
  rw [Store.withBlockBloomIn]
  simp only [course, fine, Nat.zero_add, Nat.reduceAdd]
  refine List.mem_flatMap.mpr
    ⟨number / c_bloomIndexSize % c_bloomIndexSize, ?_, ?_⟩
  · rw [List.mem_filter, offset_mod, List.mem_range'_1]
    refine ⟨?_, covers.coarse⟩
    have bound : number / c_bloomIndexSize % c_bloomIndexSize <
      c_bloomIndexSize := Nat.mod_lt _ (by decide)
    unfold c_bloomIndexSize at bound ⊢
    split <;> split <;> omega
  · have below : (number / c_bloomIndexSize % c_bloomIndexSize +
        number / c_bloomIndexSize / c_bloomIndexSize * c_bloomIndexSize) %
          2 ^ 32 = number / c_bloomIndexSize := by
      unfold c_bloomIndexSize
      unfold bloomRange at inRange
      omega
    rw [below]
    exact mem_fine inRange from_ upTo covers.fine

/-- A number whose slots contain a bloom is found. -/
theorem mem_withBlockBloom {bloom : LogBloom} {earliest latest number : Nat}
    (inRange : number < bloomRange) (from_ : earliest ≤ number)
    (upTo : number ≤ latest) (small : latest + 255 < 2 ^ 32)
    (covers : Covers store number bloom) :
    number ∈ store.withBlockBloom bloom earliest latest := by
  have chunk : Store.upow c_bloomIndexSize c_bloomIndexLevels = 256 := rfl
  have last : Store.ceilDiv latest 256 = (latest + 255) / 256 := by
    unfold Store.ceilDiv
    omega
  rw [Store.withBlockBloom, chunk, last]
  refine List.mem_flatMap.mpr
    ⟨number / c_bloomIndexSize / c_bloomIndexSize, ?_, ?_⟩
  · rw [List.mem_range'_1]
    unfold c_bloomIndexSize
    omega
  · exact mem_coarse inRange from_ upTo covers

theorem Covers.mono {index : Nat} {bloom part : LogBloom}
    (covers : Covers store index bloom) (contains : bloom.contains part) :
    Covers store index part :=
  ⟨FixedHash.contains_trans covers.fine contains,
    FixedHash.contains_trans covers.coarse contains⟩

/-! ## Runs -/

/-- Blocks with small numbers are imported after their parents, and the chain
is rewound. -/
def ImportsOrRewinds (store : Store) : Step → Prop
  | .insertBlockAndExtras header totalDifficulty =>
      Importable store header totalDifficulty ∧ header.number < bloomRange
  | .rewind _ => True
  | _ => False

instance (store : Store) (step : Step) :
    Decidable (ImportsOrRewinds store step) :=
  match step with
  | .insertBlockAndExtras _ _ => inferInstanceAs (Decidable (_ ∧ _))
  | .rewind _ => .isTrue trivial
  | .numberHash _ => .isFalse not_false
  | .garbageCollect _ _ => .isFalse not_false

namespace Searchable

variable [Hashing]

theorem start {genesis : Header} (nonzero : genesis.hash ≠ zeroHash 32)
    (difficulty : U256) (tieBreakingGas : Bool) :
    Searchable (Store.start genesis difficulty tieBreakingGas) := by
  have canonical := Canonical.start nonzero difficulty tieBreakingGas
  refine ⟨canonical, ?_, ?_⟩
  · intro hash known
    have number : (Store.start genesis difficulty
        tieBreakingGas).number hash = 0 := by
      by_cases same : hash = genesis.hash
      · rw [same]
        exact canonical.rooted.number_head
      · rw [Known] at known
        simp only [Store.start, Function.update_of_ne same] at known
        cases known
    rw [number]
    decide
  · intro number positive atMost
    exact absurd positive (Nat.not_lt.mpr atMost)

theorem step (searchable : Searchable store) {step : Step}
    (taken : ImportsOrRewinds store step) :
    ∃ next, store.step step = some next ∧ Searchable next := by
  cases step with
  | insertBlockAndExtras header totalDifficulty =>
      obtain ⟨importable, inRange⟩ := taken
      obtain ⟨route, next, inserted, kept⟩ :=
        searchable.insert importable inRange
      refine ⟨next, ?_, kept⟩
      rw [Store.step, inserted]
      rfl
  | rewind newHead => exact ⟨_, rfl, searchable.rewind newHead⟩
  | garbageCollect blooms transactions => exact taken.elim
  | numberHash number => exact taken.elim

/-- The block of a number is stored. -/
theorem block (searchable : Searchable store) {number : Nat}
    (positive : 0 < number) (atMost : number ≤ store.lastBlockNumber) :
    ∃ header, store.block (store.ancestorAt number) = some header ∧
      header.hash = store.ancestorAt number ∧ header.number = number := by
  have rooted := searchable.canonical.rooted
  have enough : store.lastBlockNumber - number ≤
      store.number store.lastBlockHash := by
    rw [rooted.number_head]
    exact Nat.sub_le _ _
  have heights := rooted.tree.height_iterate rooted.head_known enough
  have known : Known store (store.ancestorAt number) :=
    searchable.ancestorAt_known
  obtain ⟨details, found⟩ := Option.isSome_iff_exists.mp known
  have numberEq : details.number = number := by
    have here : store.number (store.ancestorAt number) = details.number :=
      Store.number_eq found
    change store.number (store.ancestorAt number) + _ = _ at heights
    rw [here, rooted.number_head] at heights
    omega
  have notGenesis : store.ancestorAt number ≠ store.genesis.hash := by
    intro same
    obtain ⟨root, rootFound, zero⟩ := rooted.genesis
    rw [same, rootFound] at found
    cases found
    omega
  obtain ⟨header, stored, hash, number_, -⟩ :=
    (rooted.linked _ details found notGenesis).block
  refine ⟨header, ?_, hash, number_.trans numberEq⟩
  rw [Store.block, if_neg notGenesis, stored]

end Searchable

/-- The slots of every number up to that of the head contain the bloom of its
block, and no search for a part of this bloom misses the block. -/
theorem run_withBlockBloom [Hashing] {genesis : Header}
    (nonzero : genesis.hash ≠ zeroHash 32) (difficulty : U256)
    (tieBreakingGas : Bool) (steps : List Step)
    (taken : Throughout ImportsOrRewinds
      (Store.start genesis difficulty tieBreakingGas) steps) :
    ∃ store, (Store.start genesis difficulty tieBreakingGas).run steps =
        some store ∧
      ∀ number, 0 < number → number ≤ store.lastBlockNumber →
        ∃ header, store.block (store.ancestorAt number) = some header ∧
          header.hash = store.ancestorAt number ∧ header.number = number ∧
          (store.slot 0 number).contains (Store.blockBloom header) ∧
          (store.slot 1 (number / c_bloomIndexSize)).contains
            (Store.blockBloom header) ∧
          ∀ (bloom : LogBloom) (earliest latest : Nat),
            earliest ≤ number → number ≤ latest → latest + 255 < 2 ^ 32 →
            (Store.blockBloom header).contains bloom →
              number ∈ store.withBlockBloom bloom earliest latest := by
  obtain ⟨store, run, searchable⟩ :=
    run_keeps (fun _ _ taken searchable => searchable.step taken)
      taken (Searchable.start nonzero difficulty tieBreakingGas)
  refine ⟨store, run, ?_⟩
  intro number positive atMost
  obtain ⟨header, block, hash, numberEq⟩ := searchable.block positive atMost
  have covers := searchable.covers number positive atMost header block
  refine ⟨header, block, hash, numberEq, covers.fine, covers.coarse, ?_⟩
  intro bloom earliest latest from_ upTo small contains
  exact mem_withBlockBloom (lt_of_le_of_lt atMost searchable.last_lt) from_
    upTo small (covers.mono contains)

section Sample

attribute [local instance] chainSampleHashing

/-- A shorter chain with a greater total difficulty, and a rewind. -/
theorem run_withBlockBloom_sample : ∃ store,
    chainSample.run [
      .insertBlockAndExtras (chainSampleHeader 101 100 1) 2,
      .insertBlockAndExtras (chainSampleHeader 102 101 2) 3,
      .insertBlockAndExtras (chainSampleHeader 201 100 1) 4,
      .insertBlockAndExtras (chainSampleHeader 202 201 2) 5,
      .rewind 1] = some store ∧
    ∀ number, 0 < number → number ≤ store.lastBlockNumber →
      ∃ header, store.block (store.ancestorAt number) = some header ∧
        header.hash = store.ancestorAt number ∧ header.number = number ∧
        (store.slot 0 number).contains (Store.blockBloom header) ∧
        (store.slot 1 (number / c_bloomIndexSize)).contains
          (Store.blockBloom header) ∧
        ∀ (bloom : LogBloom) (earliest latest : Nat),
          earliest ≤ number → number ≤ latest → latest + 255 < 2 ^ 32 →
          (Store.blockBloom header).contains bloom →
            number ∈ store.withBlockBloom bloom earliest latest :=
  run_withBlockBloom (by decide +kernel) 1 false _ (by decide +kernel)

end Sample

end BlockChain

end Aecmio
