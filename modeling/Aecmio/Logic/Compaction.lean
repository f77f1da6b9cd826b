import Mathlib.Data.List.Basic

/-!
# Compacting a vector in place

`std::remove_if` moves the elements that stay to the front of the vector while
it goes through it.  A predicate that looks at the whole vector sees the
elements that have been moved already and what they have left behind.
-/

namespace Compaction

variable {α : Type} (moved : α → α) (drop : List α → α → Bool)

/-- The loop of `std::remove_if`: some elements remain, the next one is at an
index, and the elements below the result stay. -/
def removeLoop : Nat → Nat → Nat → List α → List α
  | 0, _, result, vector => vector.take result
  | remaining + 1, index, result, vector =>
      match vector[index]? with
      | none => vector.take result
      | some item =>
          if drop vector item then
            removeLoop remaining (index + 1) result vector
          else if result = index then
            removeLoop remaining (index + 1) (result + 1) vector
          else removeLoop remaining (index + 1) (result + 1)
            ((vector.set result item).set index (moved item))

/-- `vector.erase(remove_if(..), vector.end())`. -/
def removeIf (vector : List α) : List α :=
  removeLoop moved drop vector.length 0 0 vector

/-- What is below an index: elements that were there or what is left of
them. -/
def Remains (start : List α) (index : Nat) (vector : List α) : Prop :=
  ∀ item ∈ vector.take index, item ∈ start.take index ∨
    ∃ other ∈ start.take index, item = moved other

/-- The vector when the loop has come to an index. -/
structure Reached (keep : α → Bool) (start : List α) (index result : Nat)
    (vector : List α) : Prop where
  length : vector.length = start.length
  below : result ≤ index
  kept : vector.take result = (start.take index).filter keep
  ahead : vector.drop index = start.drop index
  remains : Remains moved start index vector

variable {moved drop} {keep : α → Bool} {start vector : List α}
  {index result : Nat} {item : α}

theorem Reached.at_eq (reached : Reached moved keep start index result vector) :
    vector[index]? = start[index]? := by
  have same := congrArg (fun list => list[0]?) reached.ahead
  simpa using same

theorem Reached.beyond (reached : Reached moved keep start index result vector) :
    vector.drop (index + 1) = start.drop (index + 1) := by
  rw [← List.drop_drop, reached.ahead, List.drop_drop]

theorem take_filter_of_some (found : start[index]? = some item) :
    (start.take (index + 1)).filter keep =
      (start.take index).filter keep ++ if keep item then [item] else [] := by
  rw [List.take_add_one, found, List.filter_append]
  cases holds : keep item <;> simp [holds]

theorem Remains.next (remains : Remains moved start index vector)
    (ahead : vector.drop index = start.drop index)
    (found : start[index]? = some item) :
    Remains moved start (index + 1) vector := by
  have same : vector[index]? = some item := by
    have first := congrArg (fun list => list[0]?) ahead
    rw [← found]
    simpa using first
  intro other member
  rw [List.take_add_one, same] at member
  rw [List.take_add_one, found]
  rcases List.mem_append.mp member with before | last
  · rcases remains other before with there | ⟨origin, there, left⟩
    · exact .inl (List.mem_append_left _ there)
    · exact .inr ⟨origin, List.mem_append_left _ there, left⟩
  · exact .inl (List.mem_append_right _ last)

theorem Reached.dropped (reached : Reached moved keep start index result vector)
    (found : start[index]? = some item) (goes : keep item = false) :
    Reached moved keep start (index + 1) result vector := by
  refine ⟨reached.length, Nat.le_succ_of_le reached.below, ?_, reached.beyond,
    reached.remains.next reached.ahead found⟩
  rw [take_filter_of_some found, goes, reached.kept]
  simp

theorem Reached.stayed (reached : Reached moved keep start index index vector)
    (found : start[index]? = some item) (stays : keep item = true) :
    Reached moved keep start (index + 1) (index + 1) vector := by
  refine ⟨reached.length, Nat.le_refl _, ?_, reached.beyond,
    reached.remains.next reached.ahead found⟩
  rw [take_filter_of_some found, stays, List.take_add_one, reached.at_eq,
    found, reached.kept]
  rfl

theorem Reached.shifted (reached : Reached moved keep start index result vector)
    (different : result ≠ index) (found : start[index]? = some item)
    (stays : keep item = true) :
    Reached moved keep start (index + 1) (result + 1)
      ((vector.set result item).set index (moved item)) := by
  have below : result < index := Nat.lt_of_le_of_ne reached.below different
  have inside : index < vector.length := by
    obtain ⟨inside, -⟩ := List.getElem?_eq_some_iff.mp
      (reached.at_eq.trans found)
    exact inside
  have next := reached.remains.next reached.ahead found
  refine ⟨?_, Nat.succ_le_succ reached.below, ?_, ?_, ?_⟩
  · rw [List.length_set, List.length_set, reached.length]
  · rw [take_filter_of_some found, stays, ← reached.kept,
      List.take_set_of_le (Nat.succ_le_of_lt below), List.take_add_one]
    rw [List.take_set_of_le (Nat.le_refl _), List.getElem?_set_self
      (Nat.lt_trans below inside)]
    rfl
  · rw [List.drop_set_of_lt (Nat.lt_succ_self _),
      List.drop_set_of_lt (Nat.lt_succ_of_lt below)]
    exact reached.beyond
  · intro other member
    rw [List.take_set, List.take_set] at member
    have there : item ∈ start.take (index + 1) := by
      rw [List.take_add_one, found]
      exact List.mem_append_right _ List.mem_cons_self
    rcases List.mem_or_eq_of_mem_set member with first | same
    · rcases List.mem_or_eq_of_mem_set first with before | same
      · exact next other before
      · rw [same]
        exact .inl there
    · exact .inr ⟨item, there, same⟩

/-- Elements are dropped as a predicate on single elements tells. -/
def Agrees (moved : α → α) (drop : List α → α → Bool) (keep : α → Bool)
    (start : List α) : Prop :=
  ∀ index item vector, start[index]? = some item →
    vector.drop index = start.drop index → Remains moved start index vector →
      (drop vector item = true ↔ keep item = false)

theorem removeLoop_eq (agrees : Agrees moved drop keep start)
    (remaining : Nat) (all : index + remaining = start.length)
    (reached : Reached moved keep start index result vector) :
    removeLoop moved drop remaining index result vector =
      start.filter keep := by
  induction remaining generalizing index result vector with
  | zero =>
      have ended : start.take index = start := by
        apply List.take_of_length_le
        omega
      rw [removeLoop, reached.kept, ended]
  | succ remaining induction =>
      have inside : index < start.length := by omega
      have found : start[index]? = some start[index] :=
        List.getElem?_eq_getElem inside
      have next : index + 1 + remaining = start.length := by omega
      have decides := agrees index start[index] vector found reached.ahead
        reached.remains
      rw [removeLoop, reached.at_eq, found]
      cases stays : keep start[index] with
      | false =>
          have goes := decides.mpr stays
          simp only [goes, if_true]
          exact induction next (reached.dropped found stays)
      | true =>
          have kept : drop vector start[index] = false := by
            rw [← Bool.not_eq_true, decides, stays]
            decide
          simp only [kept, Bool.false_eq_true, if_false]
          by_cases first : result = index
          · subst first
            rw [if_pos rfl]
            exact induction next (reached.stayed found stays)
          · rw [if_neg first]
            exact induction next (reached.shifted first found stays)

/-- What stays is what a filter keeps. -/
theorem removeIf_eq_filter (agrees : Agrees moved drop keep start) :
    removeIf moved drop start = start.filter keep := by
  apply removeLoop_eq agrees
  · rw [Nat.zero_add]
  · refine ⟨rfl, Nat.le_refl _, rfl, rfl, ?_⟩
    intro item member
    exact absurd member List.not_mem_nil

end Compaction
