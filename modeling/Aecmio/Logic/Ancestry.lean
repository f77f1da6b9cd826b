import Mathlib.Data.List.Nodup
import Mathlib.Data.Nat.Find
import Mathlib.Logic.Function.Iterate

/-!
# Trees given by parents and heights

A set of nodes that contains the parents of its members, up to a root at
height zero.  The line of a node goes from the node up to the root; two lines
are apart up to one node and the same from there on.
-/

namespace Ancestry

variable {Node : Type}

/-- The nodes from one node up, without the one where the steps end. -/
def path (parent : Node → Node) (steps : Nat) (node : Node) : List Node :=
  (List.range steps).map fun step => parent^[step] node

theorem path_succ (parent : Node → Node) (steps : Nat) (node : Node) :
    path parent (steps + 1) node =
      node :: path parent steps (parent node) := by
  rw [path, List.range_succ_eq_map, List.map_cons, List.map_map]
  rfl

theorem path_add (parent : Node → Node) (steps more : Nat) (node : Node) :
    path parent (steps + more) node =
      path parent steps node ++ path parent more (parent^[steps] node) := by
  induction steps generalizing node with
  | zero => simp [path]
  | succ steps induction =>
      rw [Nat.succ_add, path_succ, path_succ, induction, List.cons_append,
        Function.iterate_succ_apply]

@[simp]
theorem length_path (parent : Node → Node) (steps : Nat) (node : Node) :
    (path parent steps node).length = steps := by
  simp [path]

@[simp]
theorem path_eq_nil {parent : Node → Node} {steps : Nat} {node : Node} :
    path parent steps node = [] ↔ steps = 0 := by
  simp [path]

theorem mem_path {parent : Node → Node} {steps : Nat} {node other : Node} :
    other ∈ path parent steps node ↔
      ∃ step < steps, parent^[step] node = other := by
  simp only [path, List.mem_map, List.mem_range]

theorem path_congr {parent parent' : Node → Node} {steps : Nat}
    {node : Node} (same : ∀ step, step < steps →
      parent'^[step] node = parent^[step] node) :
    path parent' steps node = path parent steps node := by
  refine List.map_congr_left ?_
  intro step member
  exact same step (List.mem_range.mp member)

/-- The members of a tree, with their parents and heights. -/
structure Tree (member : Node → Prop) (parent : Node → Node)
    (height : Node → Nat) (root : Node) : Prop where
  root_mem : member root
  height_root : height root = 0
  parent_mem : ∀ {node}, member node → node ≠ root → member (parent node)
  height_eq : ∀ {node}, member node → node ≠ root →
    height node = height (parent node) + 1

/-- From a node to the root. -/
def line (parent : Node → Node) (height : Node → Nat) (node : Node) :
    List Node :=
  path parent (height node + 1) node

/-- The first steps at which the lines of two nodes meet. -/
structure Meeting (parent : Node → Node) (height : Node → Nat)
    (first second : Node) (firstSteps secondSteps : Nat) : Prop where
  first_le : firstSteps ≤ height first
  second_le : secondSteps ≤ height second
  common : parent^[firstSteps] first = parent^[secondSteps] second
  first_apart : ∀ step < firstSteps,
    parent^[step] first ∉ line parent height second
  second_apart : ∀ step < secondSteps,
    parent^[step] second ∉ line parent height first

namespace Tree

variable {member : Node → Prop} {parent : Node → Node} {height : Node → Nat}
  {root node first second : Node} (tree : Tree member parent height root)

include tree

theorem ne_root_of_pos (positive : 0 < height node) : node ≠ root := by
  intro same
  rw [same, tree.height_root] at positive
  cases positive

theorem eq_root (inside : member node) (low : height node = 0) :
    node = root := by
  by_contra other
  have above := tree.height_eq inside other
  rw [low] at above
  cases above

theorem iterate_spec (inside : member node) {steps : Nat}
    (enough : steps ≤ height node) :
    member (parent^[steps] node) ∧
      height (parent^[steps] node) + steps = height node := by
  induction steps generalizing node with
  | zero => exact ⟨inside, rfl⟩
  | succ steps induction =>
      have notRoot := tree.ne_root_of_pos
        (Nat.lt_of_lt_of_le (Nat.succ_pos steps) enough)
      have above := tree.height_eq inside notRoot
      have found := induction (tree.parent_mem inside notRoot) (by omega)
      rw [Function.iterate_succ_apply]
      exact ⟨found.1, by omega⟩

theorem iterate_mem (inside : member node) {steps : Nat}
    (enough : steps ≤ height node) : member (parent^[steps] node) :=
  (tree.iterate_spec inside enough).1

theorem height_iterate (inside : member node) {steps : Nat}
    (enough : steps ≤ height node) :
    height (parent^[steps] node) + steps = height node :=
  (tree.iterate_spec inside enough).2

theorem iterate_height (inside : member node) :
    parent^[height node] node = root := by
  have found := tree.iterate_spec inside (Nat.le_refl _)
  exact tree.eq_root found.1 (by omega)

/-- The line is the same for parents that are the same in the tree. -/
theorem iterate_congr {parent' : Node → Node}
    (same : ∀ other, member other → parent' other = parent other)
    (inside : member node) {steps : Nat} (enough : steps ≤ height node) :
    parent'^[steps] node = parent^[steps] node := by
  induction steps generalizing node with
  | zero => rfl
  | succ steps induction =>
      have notRoot := tree.ne_root_of_pos
        (Nat.lt_of_lt_of_le (Nat.succ_pos steps) enough)
      have above := tree.height_eq inside notRoot
      rw [Function.iterate_succ_apply, Function.iterate_succ_apply,
        same node inside,
        induction (tree.parent_mem inside notRoot) (by omega)]

/-- What is on a line is where its height says. -/
theorem mem_line (inside : member node) {other : Node} :
    other ∈ line parent height node ↔ height other ≤ height node ∧
      parent^[height node - height other] node = other := by
  rw [line, mem_path]
  constructor
  · intro found
    obtain ⟨step, fewer, rfl⟩ := found
    have heights := tree.height_iterate inside (Nat.le_of_lt_succ fewer)
    refine ⟨by omega, ?_⟩
    congr 1
    omega
  · intro both
    exact ⟨height node - height other, by omega, both.2⟩

/-- The lines of two nodes of one height meet. -/
theorem meets_level (firstInside : member first) (secondInside : member second)
    (level : height first = height second) :
    ∃ steps ≤ height first, parent^[steps] first = parent^[steps] second ∧
      ∀ fewer < steps, parent^[fewer] first ≠ parent^[fewer] second := by
  classical
  have meets : ∃ steps, parent^[steps] first = parent^[steps] second := by
    refine ⟨height first, ?_⟩
    rw [tree.iterate_height firstInside, level,
      tree.iterate_height secondInside]
  refine ⟨Nat.find meets, ?_, Nat.find_spec meets, ?_⟩
  · apply Nat.find_le
    rw [tree.iterate_height firstInside, level,
      tree.iterate_height secondInside]
  · intro fewer less
    exact Nat.find_min meets less

end Tree

theorem Meeting.symm {parent : Node → Node} {height : Node → Nat}
    {first second : Node} {firstSteps secondSteps : Nat}
    (meeting : Meeting parent height first second firstSteps secondSteps) :
    Meeting parent height second first secondSteps firstSteps :=
  ⟨meeting.second_le, meeting.first_le, meeting.common.symm,
    meeting.second_apart, meeting.first_apart⟩

namespace Tree

variable {member : Node → Prop} {parent : Node → Node} {height : Node → Nat}
  {root node first second : Node} (tree : Tree member parent height root)

include tree

/-- One node climbs to the height of the other, then both climb. -/
theorem meeting_of_level (firstInside : member first)
    (secondInside : member second) {climb steps : Nat}
    (level : height first = height second + climb)
    (few : steps ≤ height second)
    (common : parent^[climb + steps] first = parent^[steps] second)
    (apart : ∀ fewer < steps,
      parent^[climb + fewer] first ≠ parent^[fewer] second) :
    Meeting parent height first second (climb + steps) steps := by
  refine ⟨by omega, few, common, ?_, ?_⟩
  · intro step fewer onLine
    rw [tree.mem_line secondInside] at onLine
    have heights := tree.height_iterate firstInside
      (show step ≤ height first by omega)
    have same := apart (step - climb) (by omega)
    apply same
    have firstStep : climb + (step - climb) = step := by omega
    have secondStep : height second - height (parent^[step] first) =
        step - climb := by omega
    rw [firstStep, ← secondStep, onLine.2]
  · intro step fewer onLine
    rw [tree.mem_line firstInside] at onLine
    have heights := tree.height_iterate secondInside
      (show step ≤ height second by omega)
    apply apart step fewer
    have firstStep : height first - height (parent^[step] second) =
        climb + step := by omega
    rw [← firstStep, onLine.2]

/-- The part of a line below the meeting is what is not on the other
line. -/
theorem mem_path_iff (firstInside : member first)
    (secondInside : member second) {firstSteps secondSteps : Nat}
    (meeting : Meeting parent height first second firstSteps secondSteps)
    {other : Node} :
    other ∈ path parent firstSteps first ↔
      other ∈ line parent height first ∧
        other ∉ line parent height second := by
  rw [mem_path]
  constructor
  · intro found
    obtain ⟨step, fewer, rfl⟩ := found
    refine ⟨?_, meeting.first_apart step fewer⟩
    rw [line, mem_path]
    exact ⟨step, by have := meeting.first_le; omega, rfl⟩
  · intro both
    obtain ⟨onFirst, offSecond⟩ := both
    rw [line, mem_path] at onFirst
    obtain ⟨step, inRange, rfl⟩ := onFirst
    refine ⟨step, ?_, rfl⟩
    by_contra more
    -- From the common node on, the lines are the same.
    apply offSecond
    have firstHeight := tree.height_iterate firstInside meeting.first_le
    have secondHeight := tree.height_iterate secondInside meeting.second_le
    rw [meeting.common] at firstHeight
    have split : step = (step - firstSteps) + firstSteps := by omega
    rw [split, Function.iterate_add_apply, meeting.common,
      ← Function.iterate_add_apply, line, mem_path]
    exact ⟨_, by omega, rfl⟩

/-- From the meeting on, the lines are the same. -/
theorem iterate_of_meeting (firstInside : member first)
    (secondInside : member second) {firstSteps secondSteps : Nat}
    (meeting : Meeting parent height first second firstSteps secondSteps)
    {low : Nat} (below : low + firstSteps ≤ height first) :
    parent^[height first - low] first =
      parent^[height second - low] second := by
  have firstHeight := tree.height_iterate firstInside meeting.first_le
  have secondHeight := tree.height_iterate secondInside meeting.second_le
  rw [meeting.common] at firstHeight
  have firstSplit : height first - low =
      (height first - firstSteps - low) + firstSteps := by omega
  have secondSplit : height second - low =
      (height first - firstSteps - low) + secondSteps := by omega
  rw [firstSplit, secondSplit, Function.iterate_add_apply,
    Function.iterate_add_apply, meeting.common]

theorem nodup_line (inside : member node) :
    (line parent height node).Nodup := by
  rw [line, path]
  refine List.Nodup.map_on ?_ List.nodup_range
  intro step inRange other otherInRange same
  rw [List.mem_range] at inRange otherInRange
  have heights := tree.height_iterate inside (Nat.le_of_lt_succ inRange)
  have otherHeights := tree.height_iterate inside
    (Nat.le_of_lt_succ otherInRange)
  rw [same] at heights
  omega

end Tree

end Ancestry
