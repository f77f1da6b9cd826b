import Mathlib

/-!
# The smallest entries of a sorted list

The first entries of a list that is sorted by a key are the smallest ones; how
many of them are below a bound is how many entries of the list are.
-/

namespace Selection

variable {α β : Type} [LinearOrder β] {key : α → β} {list : List α} {bound : β}

/-- What is left out is not smaller than what is taken. -/
theorem le_of_not_mem_take
    (sorted : list.Pairwise fun first second => key first ≤ key second)
    {count : Nat} {taken other : α} (member : taken ∈ list.take count)
    (inside : other ∈ list) (left : other ∉ list.take count) :
    key taken ≤ key other := by
  rw [← List.take_append_drop count list] at sorted inside
  have behind : other ∈ list.drop count :=
    (List.mem_append.mp inside).resolve_left left
  exact (List.pairwise_append.mp sorted).2.2 taken member other behind

/-- The first entries are at most the bound exactly if there are as many such
entries. -/
theorem take_le_iff
    (sorted : list.Pairwise fun first second => key first ≤ key second)
    {count : Nat} :
    (count ≤ list.length ∧ ∀ taken ∈ list.take count, key taken ≤ bound) ↔
      count ≤ list.countP fun entry => key entry ≤ bound := by
  induction list generalizing count with
  | nil => simp
  | cons entry rest induction =>
      obtain ⟨first, sorted⟩ := List.pairwise_cons.mp sorted
      cases count with
      | zero => simp
      | succ count =>
          rw [List.length_cons, Nat.succ_le_succ_iff, List.take_succ_cons,
            List.forall_mem_cons]
          by_cases low : key entry ≤ bound
          · rw [and_iff_right low, induction sorted,
              List.countP_cons_of_pos (by simpa using low),
              Nat.succ_le_succ_iff]
          · have none : (entry :: rest).countP
                (fun entry => key entry ≤ bound) = 0 := by
              rw [List.countP_eq_zero]
              intro other member
              rcases List.mem_cons.mp member with rfl | member
              · simpa using low
              · have above := first other member
                simp only [decide_eq_true_eq, not_le]
                exact (not_le.mp low).trans_le above
            rw [none]
            refine iff_of_false (fun both => low both.2.1) (by omega)

end Selection
