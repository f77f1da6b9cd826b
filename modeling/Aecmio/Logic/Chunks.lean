import Mathlib

/-!
# Finite maps kept in chunks

A finite map from numbers is kept as the list of its chunks, in order: the
number of the first item of each, with the items from there on.  No chunk is
empty, and there is a gap behind each.
-/

namespace Chunks

variable {α : Type}

abbrev Chunk (α : Type) := ℕ × List α

/-- The number behind the last item. -/
def Chunk.stop (chunk : Chunk α) : ℕ := chunk.1 + chunk.2.length

/-- The item of a chunk with a number. -/
def Chunk.item (chunk : Chunk α) (number : ℕ) : Option α :=
  if chunk.1 ≤ number then chunk.2[number - chunk.1]? else none

/-- The item with a number. -/
def item (chunks : List (Chunk α)) (number : ℕ) : Option α :=
  chunks.findSome? fun chunk => chunk.item number

structure Apart (chunks : List (Chunk α)) : Prop where
  nonempty : ∀ chunk ∈ chunks, chunk.2 ≠ []
  ordered : chunks.Pairwise fun chunk later => chunk.stop < later.1

variable {chunks front back : List (Chunk α)} {chunk : Chunk α}
  {items more : List α} {first number : ℕ}

/-! ## The items of one chunk -/

theorem Chunk.item_of_lt (below : number < chunk.1) :
    chunk.item number = none :=
  if_neg (not_le.mpr below)

theorem Chunk.item_of_stop_le (beyond : chunk.stop ≤ number) :
    chunk.item number = none := by
  unfold Chunk.stop at beyond
  rw [Chunk.item, if_pos (by omega)]
  exact List.getElem?_eq_none (by omega)

theorem Chunk.isSome_item :
    (chunk.item number).isSome ↔ chunk.1 ≤ number ∧ number < chunk.stop := by
  unfold Chunk.item Chunk.stop
  split
  · rw [Option.isSome_iff_ne_none, ne_eq, List.getElem?_eq_none_iff]
    omega
  · simp [*]

theorem Chunk.item_first : chunk.item chunk.1 = chunk.2.head? := by
  rw [Chunk.item, if_pos (le_refl chunk.1), Nat.sub_self,
    List.head?_eq_getElem?]

/-- A chunk of two parts. -/
theorem Chunk.item_append : Chunk.item (first, items ++ more) number =
    (Chunk.item (first, items) number).or
      (Chunk.item (first + items.length, more) number) := by
  unfold Chunk.item
  by_cases before : number < first + items.length
  · rw [if_neg (not_le.mpr before), Option.or_none]
    split
    · exact List.getElem?_append_left (by omega)
    · rfl
  · have missing : items[number - first]? = none :=
      List.getElem?_eq_none (by omega)
    rw [if_pos (by omega), if_pos (by omega), if_pos (by omega), missing,
      Option.none_or, List.getElem?_append_right (by omega), Nat.sub_sub]

theorem Chunk.item_singleton {value : α} : Chunk.item (first, [value]) number =
    if number = first then some value else none := by
  split
  · next same =>
      rw [same, Chunk.item_first]
      rfl
  · next other =>
      rcases Nat.lt_or_gt_of_ne other with below | beyond
      · exact Chunk.item_of_lt below
      · exact Chunk.item_of_stop_le beyond

/-- The first items of a chunk. -/
theorem Chunk.item_take {count : ℕ} (atLeast : first ≤ count) :
    Chunk.item (first, items.take (count - first)) number =
      if number < count then Chunk.item (first, items) number else none := by
  unfold Chunk.item
  by_cases before : number < count
  · rw [if_pos before]
    split
    · rw [List.getElem?_take_of_lt (by omega)]
    · rfl
  · rw [if_neg before, if_pos (by omega)]
    exact List.getElem?_eq_none (by
      rw [List.length_take]
      omega)

/-! ## The items of several chunks -/

@[simp]
theorem item_nil : item ([] : List (Chunk α)) number = none := rfl

@[simp]
theorem item_append : item (front ++ back) number =
    (item front number).or (item back number) :=
  List.findSome?_append

@[simp]
theorem item_cons : item (chunk :: chunks) number =
    (chunk.item number).or (item chunks number) := by
  unfold item
  rw [List.findSome?_cons]
  cases chunk.item number <;> rfl

theorem item_eq_none : item chunks number = none ↔
    ∀ chunk ∈ chunks, chunk.item number = none :=
  List.findSome?_eq_none_iff

theorem item_of_lt (below : ∀ chunk ∈ chunks, number < chunk.1) :
    item chunks number = none :=
  item_eq_none.mpr fun chunk member => Chunk.item_of_lt (below chunk member)

theorem item_of_stop_le (beyond : ∀ chunk ∈ chunks, chunk.stop ≤ number) :
    item chunks number = none :=
  item_eq_none.mpr fun chunk member =>
    Chunk.item_of_stop_le (beyond chunk member)

/-! ## Lists of chunks -/

namespace Apart

theorem nil : Apart ([] : List (Chunk α)) := ⟨by simp, .nil⟩

theorem cons_iff : Apart (chunk :: chunks) ↔ chunk.2 ≠ [] ∧
    (∀ later ∈ chunks, chunk.stop < later.1) ∧ Apart chunks := by
  constructor
  · intro apart
    obtain ⟨gap, ordered⟩ := List.pairwise_cons.mp apart.ordered
    exact ⟨apart.nonempty chunk List.mem_cons_self, gap,
      fun later member => apart.nonempty later (List.mem_cons_of_mem _ member),
      ordered⟩
  · intro ⟨here, gap, apart⟩
    refine ⟨?_, List.pairwise_cons.mpr ⟨gap, apart.ordered⟩⟩
    intro later member
    rcases List.mem_cons.mp member with same | member
    · rw [same]
      exact here
    · exact apart.nonempty later member

theorem append_iff : Apart (front ++ back) ↔ Apart front ∧ Apart back ∧
    ∀ chunk ∈ front, ∀ later ∈ back, chunk.stop < later.1 := by
  constructor
  · intro apart
    obtain ⟨before, behind, between⟩ := List.pairwise_append.mp apart.ordered
    exact ⟨⟨fun chunk member => apart.nonempty chunk
        (List.mem_append_left _ member), before⟩,
      ⟨fun chunk member => apart.nonempty chunk
        (List.mem_append_right _ member), behind⟩, between⟩
  · intro ⟨before, behind, between⟩
    refine ⟨?_, List.pairwise_append.mpr
      ⟨before.ordered, behind.ordered, between⟩⟩
    intro chunk member
    rcases List.mem_append.mp member with inFront | inBack
    · exact before.nonempty chunk inFront
    · exact behind.nonempty chunk inBack

/-- A chunk starts before it stops. -/
theorem first_lt (apart : Apart chunks) (member : chunk ∈ chunks) :
    chunk.1 < chunk.stop := by
  have some_ := List.length_pos_iff.mpr (apart.nonempty chunk member)
  unfold Chunk.stop
  omega

/-- What stops before the chunks has none of their items. -/
theorem item_beyond (apart : Apart (chunk :: chunks))
    (atMost : number ≤ chunk.stop) : item chunks number = none := by
  apply item_of_lt
  intro later member
  exact lt_of_le_of_lt atMost ((cons_iff.mp apart).2.1 later member)

end Apart

end Chunks
