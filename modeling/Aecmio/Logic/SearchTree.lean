import Mathlib.Data.Tree.Basic

/-!
# Insertion into a search tree whose order may be stale

A standard multiset finds the place of a new element by a descent from the
root of a search tree.  When the comparison has changed since the elements
were inserted, the place depends on the shape of the tree.  Whatever the
shape, the new element ends up between two neighbours with which it was
compared.  A comparison that fails makes the insertion fail.
-/

namespace SearchTrees

variable {α : Type}

/-- The elements in the order of an iteration. -/
def inorder : BinaryTree α → List α
  | .nil => []
  | .node value left right => inorder left ++ value :: inorder right

/-- The new element goes left where it is less, and right otherwise. -/
def insert (less : α → α → Option Bool) (element : α) :
    BinaryTree α → Option (BinaryTree α)
  | .nil => some (.node element .nil .nil)
  | .node value left right => do
      if ← less element value then
        return .node value (← insert less element left) right
      else
        return .node value left (← insert less element right)

/-- A place in a sequence where a descent may end. -/
structure Gap (less : α → α → Option Bool) (element : α)
    (front back : List α) : Prop where
  last : ∀ value ∈ front.getLast?, less element value = some false
  first : ∀ value ∈ back.head?, less element value = some true

/-- A tree of a list that has the element in the middle as its root; `depth`
bounds the levels that are split so. -/
def halve : Nat → List α → BinaryTree α
  | 0, list => list.foldr (fun value rest => .node value .nil rest) .nil
  | depth + 1, list =>
      match list.drop (list.length / 2) with
      | [] => .nil
      | value :: back =>
          .node value (halve depth (list.take (list.length / 2)))
            (halve depth back)

@[simp]
theorem inorder_halve (depth : Nat) (list : List α) :
    inorder (halve depth list) = list := by
  induction depth generalizing list with
  | zero =>
      unfold halve
      induction list with
      | nil => rfl
      | cons value rest induction =>
          rw [List.foldr_cons, inorder, induction]
          rfl
  | succ depth induction =>
      have parts := List.take_append_drop (list.length / 2) list
      unfold halve
      split
      · rename_i none
        have short := List.drop_eq_nil_iff.mp none
        have nothing : list.length = 0 := by omega
        rw [List.length_eq_zero_iff.mp nothing]
        rfl
      · rename_i value back split
        rw [split] at parts
        rw [inorder, induction, induction]
        exact parts

variable {less : α → α → Option Bool} {element : α}

theorem insert_isSome {tree : BinaryTree α}
    (comparable : ∀ value ∈ inorder tree, (less element value).isSome) :
    (insert less element tree).isSome := by
  induction tree with
  | nil => rfl
  | node value left right inductionLeft inductionRight =>
      simp only [inorder, List.mem_append, List.mem_cons] at comparable
      obtain ⟨smaller, compared⟩ := Option.isSome_iff_exists.mp
        (comparable value (.inr (.inl rfl)))
      have goesLeft := inductionLeft fun other member =>
        comparable other (.inl member)
      have goesRight := inductionRight fun other member =>
        comparable other (.inr (.inr member))
      obtain ⟨newLeft, leftEq⟩ := Option.isSome_iff_exists.mp goesLeft
      obtain ⟨newRight, rightEq⟩ := Option.isSome_iff_exists.mp goesRight
      cases smaller with
      | true => simp [insert, compared, leftEq]
      | false => simp [insert, compared, rightEq]

/-- The new element stands in a gap of the sequence. -/
theorem inorder_insert {tree tree' : BinaryTree α}
    (inserted : insert less element tree = some tree') :
    ∃ front back, inorder tree = front ++ back ∧
      inorder tree' = front ++ element :: back ∧
      Gap less element front back := by
  induction tree generalizing tree' with
  | nil =>
      cases inserted
      exact ⟨[], [], rfl, rfl, by simp, by simp⟩
  | node value left right inductionLeft inductionRight =>
      simp only [insert] at inserted
      obtain ⟨smaller, compared, inserted⟩ := Option.bind_eq_some_iff.mp
        inserted
      cases smaller with
      | true =>
          obtain ⟨newLeft, leftEq, inserted⟩ := Option.bind_eq_some_iff.mp
            inserted
          cases inserted
          obtain ⟨front, back, old, new, gap⟩ := inductionLeft leftEq
          refine ⟨front, back ++ value :: inorder right, ?_, ?_, gap.last, ?_⟩
          · simp [inorder, old]
          · simp [inorder, new]
          · intro other head
            cases back with
            | nil =>
                simp only [List.nil_append, List.head?_cons,
                  Option.mem_some_iff] at head
                rw [← head]
                exact compared
            | cons first rest => exact gap.first other head
      | false =>
          obtain ⟨newRight, rightEq, inserted⟩ := Option.bind_eq_some_iff.mp
            inserted
          cases inserted
          obtain ⟨front, back, old, new, gap⟩ := inductionRight rightEq
          refine ⟨inorder left ++ value :: front, back, ?_, ?_, ?_, gap.first⟩
          · simp [inorder, old]
          · simp [inorder, new]
          · intro other last
            rw [List.getLast?_append] at last
            cases front with
            | nil =>
                simp only [List.getLast?_singleton, Option.some_or,
                  Option.mem_some_iff] at last
                rw [← last]
                exact compared
            | cons first rest =>
                refine gap.last other ?_
                rw [List.getLast?_cons_cons,
                  List.getLast?_eq_some_getLast (List.cons_ne_nil _ _),
                  Option.some_or] at last
                rw [List.getLast?_eq_some_getLast (List.cons_ne_nil _ _)]
                exact last

end SearchTrees
