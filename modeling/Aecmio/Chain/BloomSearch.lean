import Aecmio.Chain.Blooms

/-!
# What a search for a bloom returns

The search goes from chunks of 256 numbers over those of 16 down to the
numbers.  It stops in the chunks that the last number is in; but it rounds up
where it starts, and goes through all of the next chunk of 256 numbers if the
last number does not start one.
-/

namespace Aecmio

namespace BlockChain

variable {store : Store} {bloom : LogBloom} {earliest latest number : Nat}

/-- The slots of level one contain the slots that they cover. -/
def Layered (store : Store) : Prop :=
  ∀ number < 2 ^ 32, (store.slot 1 (number / c_bloomIndexSize)).contains
    (store.slot 0 number)

/-- The numbers of a range whose slots contain a bloom. -/
def Store.matching (store : Store) (bloom : LogBloom)
    (earliest latest : Nat) : List Nat :=
  (List.range' earliest (latest + 1 - earliest)).filter fun number =>
    (store.slot 0 number).contains bloom

/-- A range is only cut off in the chunks of its ends. -/
structure InChunks (size earliest latest number : Nat) : Prop where
  first : number / size = earliest / size → earliest ≤ number
  last : number / size = latest / size → number ≤ latest

/-- The places in a chunk that the search looks at. -/
theorem mem_places {first last o : Nat} {atFirst atLast : Prop}
    [Decidable atFirst] [Decidable atLast] :
    o ∈ List.range' (if atFirst then first % 16 else 0)
        ((if atLast then last % 16 + 1 else 16) -
          if atFirst then first % 16 else 0) ↔
      o < 16 ∧ (atFirst → first % 16 ≤ o) ∧ (atLast → o ≤ last % 16) := by
  rw [List.mem_range'_1]
  by_cases isFirst : atFirst
  · by_cases isLast : atLast
    · simp [isFirst, isLast]
      omega
    · simp [isFirst, isLast]
      omega
  · by_cases isLast : atLast
    · simp [isFirst, isLast]
      omega
    · simp [isFirst, isLast]

theorem mem_withBlockBloomIn_zero {index : Nat} (inRange : index < 2 ^ 28) :
    number ∈ store.withBlockBloomIn bloom earliest latest 0 index ↔
      number / 16 = index ∧ InChunks 16 earliest latest number ∧
        (store.slot 0 number).contains bloom := by
  have course : Store.upow 16 1 = 16 := rfl
  have fine : Store.upow 16 0 = 1 := rfl
  have chunkSize : c_bloomIndexSize = 16 := rfl
  simp only [Store.withBlockBloomIn, chunkSize, Nat.zero_add, course, fine,
    Nat.div_one, List.mem_map, List.mem_filter, mem_places]
  constructor
  · intro found
    obtain ⟨o, ⟨⟨small, first, last⟩, contains⟩, rfl⟩ := found
    have whole : (o + index * 16) % 2 ^ 32 = o + index * 16 := by omega
    rw [whole]
    have quotient : (o + index * 16) / 16 = index := by omega
    refine ⟨quotient, ⟨?_, ?_⟩, ?_⟩
    · intro same
      have low := first (quotient.symm.trans same)
      omega
    · intro same
      have high := last (quotient.symm.trans same)
      omega
    · rw [Store.slot, chunkSize, quotient, ← offset_mod, chunkSize,
        Nat.add_mul_mod_self_right, ← chunkSize, offset_mod]
      exact contains
  · intro found
    obtain ⟨quotient, ⟨first, last⟩, contains⟩ := found
    refine ⟨number % 16, ⟨⟨Nat.mod_lt _ (by decide), ?_, ?_⟩, ?_⟩, by omega⟩
    · intro same
      have low := first (quotient.trans same)
      omega
    · intro same
      have high := last (quotient.trans same)
      omega
    · rw [Store.slot, chunkSize, quotient] at contains
      rw [show Store.offset (number % 16) = Store.offset number from
        offset_mod number]
      exact contains

theorem mem_withBlockBloomIn_one {index : Nat} (inRange : index < 2 ^ 24) :
    number ∈ store.withBlockBloomIn bloom earliest latest 1 index ↔
      number / 256 = index ∧ InChunks 256 earliest latest number ∧
        (store.slot 1 (number / 16)).contains bloom ∧
        (store.slot 0 number).contains bloom := by
  have course : Store.upow 16 2 = 256 := rfl
  have fine : Store.upow 16 1 = 16 := rfl
  have chunkSize : c_bloomIndexSize = 16 := rfl
  rw [Store.withBlockBloomIn]
  simp only [chunkSize, Nat.reduceAdd, course, fine, List.mem_flatMap,
    List.mem_filter, mem_places]
  constructor
  · intro found
    obtain ⟨o, ⟨⟨small, first, last⟩, coarse⟩, inside⟩ := found
    have whole : (o + index * 16) % 2 ^ 32 = o + index * 16 := by omega
    rw [whole, mem_withBlockBloomIn_zero (by omega)] at inside
    obtain ⟨quotient, chunks, contains⟩ := inside
    have upper : number / 256 = index := by omega
    refine ⟨upper, ⟨?_, ?_⟩, ?_, contains⟩
    · intro same
      have low := first (upper.symm.trans same)
      by_cases here : number / 16 = earliest / 16
      · exact chunks.first here
      · omega
    · intro same
      have high := last (upper.symm.trans same)
      by_cases here : number / 16 = latest / 16
      · exact chunks.last here
      · omega
    · rw [Store.slot, chunkSize, quotient]
      have upper' : (o + index * 16) / 16 = index := by omega
      rw [upper', ← offset_mod, chunkSize, Nat.add_mul_mod_self_right,
        ← chunkSize, offset_mod]
      exact coarse
  · intro found
    obtain ⟨upper, chunks, coarse, contains⟩ := found
    have whole : (number / 16 % 16 + index * 16) % 2 ^ 32 = number / 16 := by
      omega
    refine ⟨number / 16 % 16, ⟨⟨Nat.mod_lt _ (by decide), ?_, ?_⟩, ?_⟩, ?_⟩
    · intro same
      have low := chunks.first (upper.trans same)
      omega
    · intro same
      have high := chunks.last (upper.trans same)
      omega
    · have upper' : number / 16 / 16 = index := by omega
      rw [Store.slot, chunkSize, upper'] at coarse
      rw [show Store.offset (number / 16 % 16) = Store.offset (number / 16) from
        offset_mod _]
      exact coarse
    · rw [whole, mem_withBlockBloomIn_zero (by omega)]
      refine ⟨rfl, ⟨?_, ?_⟩, contains⟩
      · intro same
        exact chunks.first (by omega)
      · intro same
        exact chunks.last (by omega)

theorem ceilDiv_lt (latest : Nat) : Store.ceilDiv latest 256 < 2 ^ 24 := by
  unfold Store.ceilDiv
  omega

/-- The numbers that the search returns. -/
theorem mem_withBlockBloom_iff (layered : Layered store) :
    number ∈ store.withBlockBloom bloom earliest latest ↔
      earliest ≤ number ∧ number / 256 ≤ Store.ceilDiv latest 256 ∧
        (number / 256 = latest / 256 → number ≤ latest) ∧
        (store.slot 0 number).contains bloom := by
  have chunk : Store.upow c_bloomIndexSize c_bloomIndexLevels = 256 := rfl
  have top := ceilDiv_lt latest
  rw [Store.withBlockBloom, chunk, List.mem_flatMap]
  constructor
  · intro found
    obtain ⟨index, bounds, inside⟩ := found
    rw [List.mem_range'_1] at bounds
    rw [show c_bloomIndexLevels - 1 = 1 from rfl,
      mem_withBlockBloomIn_one (by omega)] at inside
    obtain ⟨upper, chunks, -, contains⟩ := inside
    refine ⟨?_, by omega, chunks.last, contains⟩
    by_cases same : number / 256 = earliest / 256
    · exact chunks.first same
    · omega
  · intro found
    obtain ⟨low, below, last, contains⟩ := found
    refine ⟨number / 256, ?_, ?_⟩
    · rw [List.mem_range'_1]
      omega
    · rw [show c_bloomIndexLevels - 1 = 1 from rfl,
        mem_withBlockBloomIn_one (by omega)]
      refine ⟨rfl, ⟨fun _ => low, last⟩, ?_, contains⟩
      exact FixedHash.contains_trans (layered number (by omega)) contains

theorem withBlockBloomIn_zero_sorted {index : Nat} (inRange : index < 2 ^ 28) :
    (store.withBlockBloomIn bloom earliest latest 0 index).Pairwise
      (· < ·) := by
  have course : Store.upow 16 1 = 16 := rfl
  have fine : Store.upow 16 0 = 1 := rfl
  have chunkSize : c_bloomIndexSize = 16 := rfl
  simp only [Store.withBlockBloomIn, chunkSize, Nat.zero_add, course, fine,
    Nat.div_one]
  rw [List.pairwise_map]
  apply List.Pairwise.filter
  apply List.Pairwise.imp_of_mem _ List.pairwise_lt_range'
  intro first second firstIn secondIn less
  rw [mem_places] at firstIn secondIn
  omega

theorem withBlockBloomIn_one_sorted {index : Nat} (inRange : index < 2 ^ 24) :
    (store.withBlockBloomIn bloom earliest latest 1 index).Pairwise
      (· < ·) := by
  have course : Store.upow 16 2 = 256 := rfl
  have fine : Store.upow 16 1 = 16 := rfl
  have chunkSize : c_bloomIndexSize = 16 := rfl
  rw [Store.withBlockBloomIn]
  simp only [chunkSize, Nat.reduceAdd, course, fine]
  rw [List.pairwise_flatMap]
  constructor
  · intro o member
    have small := (mem_places.mp (List.mem_filter.mp member).1).1
    exact withBlockBloomIn_zero_sorted (by omega)
  · apply List.Pairwise.filter
    apply List.Pairwise.imp_of_mem _ List.pairwise_lt_range'
    intro first second firstIn secondIn less number inFirst other inSecond
    rw [mem_places] at firstIn secondIn
    rw [mem_withBlockBloomIn_zero (by omega)] at inFirst inSecond
    omega

theorem withBlockBloom_sorted :
    (store.withBlockBloom bloom earliest latest).Pairwise (· < ·) := by
  have chunk : Store.upow c_bloomIndexSize c_bloomIndexLevels = 256 := rfl
  have top := ceilDiv_lt latest
  rw [Store.withBlockBloom, chunk, List.pairwise_flatMap,
    show c_bloomIndexLevels - 1 = 1 from rfl]
  constructor
  · intro index member
    rw [List.mem_range'_1] at member
    exact withBlockBloomIn_one_sorted (by omega)
  · apply List.Pairwise.imp_of_mem _ List.pairwise_lt_range'
    intro first second firstIn secondIn less number inFirst other inSecond
    rw [List.mem_range'_1] at firstIn secondIn
    rw [mem_withBlockBloomIn_one (by omega)] at inFirst inSecond
    omega

theorem mem_matching : number ∈ store.matching bloom earliest latest ↔
    earliest ≤ number ∧ number ≤ latest ∧
      (store.slot 0 number).contains bloom := by
  rw [Store.matching, List.mem_filter, List.mem_range'_1]
  constructor
  · intro both
    exact ⟨both.1.1, by omega, both.2⟩
  · intro all
    exact ⟨by omega, all.2.2⟩

theorem matching_sorted :
    (store.matching bloom earliest latest).Pairwise (· < ·) := by
  apply List.Pairwise.filter
  exact List.pairwise_lt_range'

/-- Nothing is found in the chunk of 256 numbers that the search goes into too
far.  For the last 255 numbers the rounding overflows, and the search only
goes through the first 256 numbers. -/
def Confined (store : Store) (bloom : LogBloom) (earliest latest : Nat) :
    Prop :=
  if latest + 255 < 2 ^ 32 then
    latest % 256 = 0 ∨ ∀ number, number / 256 = latest / 256 + 1 →
      ¬ (store.slot 0 number).contains bloom
  else ∀ number, earliest ≤ number → 256 ≤ number → number ≤ latest →
    ¬ (store.slot 0 number).contains bloom

/-- The search returns the numbers of a range whose slots contain a bloom if
and only if there is nothing where it goes too far. -/
theorem withBlockBloom_eq_iff (layered : Layered store)
    (ordered : earliest ≤ latest) (inRange : latest < 2 ^ 32) :
    store.withBlockBloom bloom earliest latest =
        store.matching bloom earliest latest ↔
      Confined store bloom earliest latest := by
  have same : store.withBlockBloom bloom earliest latest =
      store.matching bloom earliest latest ↔
        ∀ number, number ∈ store.withBlockBloom bloom earliest latest ↔
          number ∈ store.matching bloom earliest latest := by
    constructor
    · intro equal number
      rw [equal]
    · intro members
      exact withBlockBloom_sorted.sortedLT.eq_of_mem_iff
        matching_sorted.sortedLT members
  rw [same]
  simp only [mem_withBlockBloom_iff layered, mem_matching]
  unfold Confined
  split
  next fits =>
      have last : Store.ceilDiv latest 256 = (latest + 255) / 256 := by
        unfold Store.ceilDiv
        omega
      rw [last]
      constructor
      · intro members
        by_cases aligned : latest % 256 = 0
        · exact Or.inl aligned
        · right
          intro number next contains
          have inside := (members number).mp
            ⟨by omega, by omega, by omega, contains⟩
          omega
      · intro confined number
        constructor
        · intro found
          obtain ⟨low, below, upTo, contains⟩ := found
          refine ⟨low, ?_, contains⟩
          rcases confined with aligned | nothing
          · omega
          · by_contra beyond
            exact nothing number (by omega) contains
        · intro found
          obtain ⟨low, upTo, contains⟩ := found
          exact ⟨low, by omega, fun _ => upTo, contains⟩
  next overflow =>
      have last : Store.ceilDiv latest 256 = 0 := by
        unfold Store.ceilDiv
        omega
      rw [last]
      constructor
      · intro members number low large upTo contains
        have inside := (members number).mpr ⟨low, upTo, contains⟩
        omega
      · intro confined number
        constructor
        · intro found
          obtain ⟨low, below, upTo, contains⟩ := found
          exact ⟨low, by omega, contains⟩
        · intro found
          obtain ⟨low, upTo, contains⟩ := found
          have small : number < 256 := by
            by_contra large
            exact confined number low (by omega) upTo contains
          exact ⟨low, by omega, by omega, contains⟩

def fullBloom : LogBloom :=
  ⟨List.replicate 256 0xff, List.length_replicate⟩

/-- All slots have all bits. -/
def fullSample : Store :=
  { Store.start ⟨hashOfNat 1, zeroHash 32, 0, 0, zeroHash 256, zeroHash 20, []⟩
      0 false with
    blocksBlooms := ⟨fun _ => some fun _ => fullBloom, fun _ => none⟩ }

theorem fullSample_slot (level number : Nat) :
    fullSample.slot level number = fullBloom := rfl

theorem fullSample_layered : Layered fullSample := by
  intro number inRange
  rw [fullSample_slot, fullSample_slot]
  exact FixedHash.contains_refl _

theorem withBlockBloom_eq_iff_sample :
    fullSample.withBlockBloom fullBloom 3 256 =
        fullSample.matching fullBloom 3 256 ↔
      Confined fullSample fullBloom 3 256 :=
  withBlockBloom_eq_iff fullSample_layered (by decide) (by decide)

/-- A search up to number one returns number 256. -/
theorem withBlockBloom_beyond_sample :
    Layered fullSample ∧
    256 ∈ fullSample.withBlockBloom fullBloom 0 1 ∧
    fullSample.withBlockBloom fullBloom 0 1 ≠
      fullSample.matching fullBloom 0 1 := by
  have found : 256 ∈
      fullSample.withBlockBloom fullBloom 0 1 := by
    rw [mem_withBlockBloom_iff fullSample_layered]
    rw [fullSample_slot]
    exact ⟨by decide, by decide, by decide, FixedHash.contains_refl _⟩
  refine ⟨fullSample_layered, found, ?_⟩
  intro same
  rw [same, mem_matching] at found
  exact absurd found.2.1 (by decide)

end BlockChain

end Aecmio
