import Mathlib

/-!
# Unbounded arrays

A list stands for an array without an end: its elements, and after them one
blank element for ever.  Blanks that are appended do not show.  A slice may
reach past the list, and writing over a list that is long enough is writing
over its array.
-/

namespace Unbounded

variable {α : Type} (blank : α)

/-- The array that a list stands for. -/
def array (list : List α) : Nat → α := fun position => list.getD position blank

/-- The elements of an array from `offset` on. -/
def slice (array : Nat → α) (offset size : Nat) : List α :=
  (List.range size).map fun position => array (offset + position)

/-- An array with `data` written over it from `offset` on. -/
def overwrite (array : Nat → α) (offset : Nat) (data : List α) : Nat → α :=
  fun position =>
    if position < offset then array position
    else data.getD (position - offset) (array position)

section

variable {blank}

theorem array_of_lt {list : List α} {position : Nat}
    (inside : position < list.length) :
    array blank list position = list[position] :=
  List.getD_eq_getElem list blank inside

theorem array_of_ge {list : List α} {position : Nat}
    (past : list.length ≤ position) : array blank list position = blank :=
  List.getD_eq_default list blank past

/-- Blanks at the end do not show. -/
@[simp]
theorem array_append_blanks (list : List α) (count : Nat) :
    array blank (list ++ List.replicate count blank) = array blank list := by
  funext position
  rcases Nat.lt_or_ge position list.length with inside | past
  · exact List.getD_append list _ blank position inside
  · rw [array_of_ge past, array,
      List.getD_append_right list _ blank position past,
      List.getD_eq_getElem?_getD, List.getElem?_replicate]
    split <;> rfl

theorem array_drop (list : List α) (offset position : Nat) :
    array blank (list.drop offset) position =
      array blank list (offset + position) := by
  simp only [array, List.getD_eq_getElem?_getD, List.getElem?_drop]

@[simp]
theorem length_slice (array : Nat → α) (offset size : Nat) :
    (slice array offset size).length = size := by
  rw [slice, List.length_map, List.length_range]

@[simp]
theorem slice_zero (array : Nat → α) (offset : Nat) :
    slice array offset 0 = [] := rfl

/-- A slice of a list, filled up with blanks. -/
theorem slice_array (list : List α) (offset size : Nat) :
    slice (array blank list) offset size = (list.drop offset).take size ++
      List.replicate (size - (list.length - offset)) blank := by
  refine List.ext_getElem ?_ fun position inside _ => ?_
  · simp only [length_slice, List.length_append, List.length_take,
      List.length_drop, List.length_replicate]
    omega
  · rw [length_slice] at inside
    have entry : (slice (array blank list) offset size)[position] =
        array blank (list.drop offset) position := by
      simp [slice, array_drop]
    rw [entry, List.getElem_append]
    split
    · rename_i within
      simp only [List.length_take, List.length_drop] at within
      rw [List.getElem_take]
      exact array_of_lt (by rw [List.length_drop]; omega)
    · rename_i past
      simp only [List.length_take, List.length_drop] at past
      rw [List.getElem_replicate]
      exact array_of_ge (by rw [List.length_drop]; omega)

/-- A slice that lies in the list. -/
theorem slice_inside {list : List α} {offset size : Nat}
    (inside : offset + size ≤ list.length) :
    slice (array blank list) offset size =
      (list.drop offset).take size := by
  rw [slice_array, Nat.sub_eq_zero_of_le (by omega)]
  exact List.append_nil _

/-- A slice put together from what there is of it. -/
theorem slice_copied {list : List α} {offset size count : Nat}
    (copied : count = min size (list.length - offset)) :
    slice (array blank list) offset size = (list.drop offset).take count ++
      List.replicate (size - count) blank := by
  have kept : (list.drop offset).take count = (list.drop offset).take size := by
    rw [copied, ← List.length_drop, List.take_eq_take_iff]
    omega
  have rest : size - count = size - (list.length - offset) := by omega
  rw [slice_array, kept, rest]

theorem overwrite_before {array : Nat → α} {offset position : Nat}
    (data : List α) (before : position < offset) :
    overwrite array offset data position = array position :=
  if_pos before

theorem overwrite_inside {array : Nat → α} {offset position : Nat}
    {data : List α} (inside : position < data.length) :
    overwrite array offset data (offset + position) = data[position] := by
  rw [overwrite, if_neg (by omega), Nat.add_sub_cancel_left]
  exact List.getD_eq_getElem data _ inside

theorem overwrite_behind {array : Nat → α} {offset position : Nat}
    {data : List α} (behind : offset + data.length ≤ position) :
    overwrite array offset data position = array position := by
  rw [overwrite, if_neg (by omega)]
  exact List.getD_eq_default data _ (by omega)

@[simp]
theorem overwrite_nil (array : Nat → α) (offset : Nat) :
    overwrite array offset [] = array := by
  funext position
  simp [overwrite]

/-- Writing over a list that is long enough. -/
theorem array_overwritten {list : List α} {offset : Nat} {data : List α}
    (inside : offset + data.length ≤ list.length) :
    array blank (list.take offset ++ (data ++ list.drop (offset + data.length)))
      = overwrite (array blank list) offset data := by
  have front : (list.take offset).length = offset :=
    List.length_take_of_le (by omega)
  funext position
  rcases Nat.lt_or_ge position offset with before | after
  · have early : position < list.length := by omega
    rw [overwrite_before data before, array_of_lt early, array,
      List.getD_append _ _ _ _ (by omega)]
    rw [List.getD_eq_getElem _ _ (by omega), List.getElem_take]
  · obtain ⟨further, rfl⟩ := Nat.exists_eq_add_of_le after
    rw [array, List.getD_append_right _ _ _ _ (by omega), front,
      Nat.add_sub_cancel_left]
    rcases Nat.lt_or_ge further data.length with covered | behind
    · rw [overwrite_inside covered, List.getD_append _ _ _ _ covered,
        List.getD_eq_getElem _ _ covered]
    · rw [overwrite_behind (by omega),
        List.getD_append_right _ _ _ _ behind]
      refine (array_drop list _ _).trans ?_
      congr 1
      omega

end

end Unbounded
