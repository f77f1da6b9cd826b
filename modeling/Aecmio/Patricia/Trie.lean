import Mathlib

/-!
# Patricia tries

A trie over digits `ι` holds at most one value for every list of digits.
Runs of digits without a choice are compressed into leaves and extensions.
`Canonical` says that no node could be compressed further; insertion and
erasure keep it, and on lookups they act as on a finite map.
-/

namespace Patricia

inductive Trie (ι V : Type*) where
  | null
  | leaf (key : List ι) (value : V)
  | ext (key : List ι) (child : Trie ι V)
  | branch (children : ι → Trie ι V) (value : Option V)

/-! ## Common prefixes -/

/-- Two keys part here: neither continues with the other's next digit. -/
def Parted {ι : Type*} : List ι → List ι → Prop
  | [], [] => False
  | digit :: _, other :: _ => digit ≠ other
  | _, _ => True

section CommonPrefix

variable {ι : Type*} [DecidableEq ι]

/-- The number of digits two keys share. -/
def shared : List ι → List ι → Nat
  | digit :: key, other :: key' =>
      if digit = other then shared key key' + 1 else 0
  | _, _ => 0

@[simp] theorem shared_nil_left (key : List ι) : shared [] key = 0 := by
  simp [shared]

@[simp] theorem shared_nil_right (key : List ι) : shared key [] = 0 := by
  cases key <;> simp [shared]

theorem shared_append (common left right : List ι) :
    shared (common ++ left) (common ++ right) =
      common.length + shared left right := by
  induction common with
  | nil => simp
  | cons digit common induction =>
      simp only [List.cons_append, shared, if_true, induction,
        List.length_cons]
      omega

theorem shared_of_parted {left right : List ι} (parted : Parted left right) :
    shared left right = 0 := by
  match left, right with
  | [], _ => simp
  | _ :: _, [] => simp
  | digit :: left, other :: right =>
      have different : digit ≠ other := parted
      simp [shared, different]

theorem shared_eq_left_iff (left right : List ι) :
    shared left right = left.length ↔ left <+: right := by
  induction left generalizing right with
  | nil => simp
  | cons digit left induction =>
      cases right with
      | nil => simp
      | cons other right =>
          rw [List.cons_prefix_cons]
          by_cases same : digit = other
          · simp [shared, same, induction]
          · simp [shared, same]

theorem shared_comm (left right : List ι) :
    shared left right = shared right left := by
  induction left generalizing right with
  | nil => simp
  | cons digit left induction =>
      cases right with
      | nil => simp
      | cons other right =>
          by_cases same : digit = other
          · simp [shared, same, induction]
          · simp [shared, same, Ne.symm same]

theorem shared_eq_right_iff (left right : List ι) :
    shared left right = right.length ↔ right <+: left := by
  rw [shared_comm, shared_eq_left_iff]

/-- Different keys are a common prefix and two parted rests. -/
theorem exists_parted {left right : List ι} (different : left ≠ right) :
    ∃ common left' right', left = common ++ left' ∧
      right = common ++ right' ∧ Parted left' right' := by
  induction left generalizing right with
  | nil =>
      cases right with
      | nil => exact absurd rfl different
      | cons other right => exact ⟨[], [], other :: right, rfl, rfl, trivial⟩
  | cons digit left induction =>
      cases right with
      | nil => exact ⟨[], digit :: left, [], rfl, rfl, trivial⟩
      | cons other right =>
          by_cases same : digit = other
          · subst same
            obtain ⟨common, left', right', splitLeft, splitRight, parted⟩ :=
              induction (show left ≠ right by simpa using different)
            exact ⟨digit :: common, left', right', by simp [splitLeft],
              by simp [splitRight], parted⟩
          · exact ⟨[], digit :: left, other :: right, rfl, rfl, same⟩

end CommonPrefix

namespace Trie

variable {ι V : Type*} [DecidableEq ι]

/-! ## Lookup -/

def get : Trie ι V → List ι → Option V
  | .null, _ => none
  | .leaf key value, path => if key = path then some value else none
  | .ext key child, path =>
      if key <+: path then child.get (path.drop key.length) else none
  | .branch _ value, [] => value
  | .branch children _, digit :: path => (children digit).get path

@[simp] theorem get_null (path : List ι) : (null : Trie ι V).get path = none :=
  rfl

@[simp] theorem get_leaf (key path : List ι) (value : V) :
    (leaf key value).get path = if key = path then some value else none := rfl

@[simp] theorem get_branch_nil (children : ι → Trie ι V) (value : Option V) :
    (branch children value).get [] = value := rfl

@[simp] theorem get_branch_cons (children : ι → Trie ι V) (value : Option V)
    (digit : ι) (path : List ι) :
    (branch children value).get (digit :: path) =
      (children digit).get path := rfl

theorem get_ext (key path : List ι) (child : Trie ι V) :
    (ext key child).get path =
      if key <+: path then child.get (path.drop key.length) else none := rfl

@[simp] theorem get_ext_append (key path : List ι) (child : Trie ι V) :
    (ext key child).get (key ++ path) = child.get path := by
  simp [get_ext]

theorem get_ext_off {key path : List ι} (child : Trie ι V)
    (outside : ¬ key <+: path) : (ext key child).get path = none := by
  simp [get_ext, outside]

/-- A run of digits above a trie; no digits need no node. -/
def wrap : List ι → Trie ι V → Trie ι V
  | [], trie => trie
  | digit :: key, trie => .ext (digit :: key) trie

theorem get_wrap (key path : List ι) (trie : Trie ι V) :
    (wrap key trie).get path = (ext key trie).get path := by
  cases key with
  | nil => simp [wrap, get_ext]
  | cons digit key => rfl

@[simp] theorem get_wrap_append (key path : List ι) (trie : Trie ι V) :
    (wrap key trie).get (key ++ path) = trie.get path := by
  rw [get_wrap, get_ext_append]

theorem get_wrap_off {key path : List ι} (trie : Trie ι V)
    (outside : ¬ key <+: path) : (wrap key trie).get path = none := by
  rw [get_wrap, get_ext_off trie outside]

/-! ## Canonical form -/

/-- At least two of the slots of a branch are in use. -/
def Crowded (children : ι → Trie ι V) (value : Option V) : Prop :=
  (∃ digit other, digit ≠ other ∧ children digit ≠ null ∧
    children other ≠ null) ∨
  (value ≠ none ∧ ∃ digit, children digit ≠ null)

def IsBranch : Trie ι V → Prop
  | .branch _ _ => True
  | _ => False

/-- Nothing can be compressed: extensions are nonempty and end in a branch,
and branches are crowded. -/
def Canonical : Trie ι V → Prop
  | .null => True
  | .leaf _ _ => True
  | .ext key child => key ≠ [] ∧ child.IsBranch ∧ child.Canonical
  | .branch children value =>
      (∀ digit, (children digit).Canonical) ∧ Crowded children value

omit [DecidableEq ι] in
theorem ne_null_of_isBranch {trie : Trie ι V} (branch : trie.IsBranch) :
    trie ≠ null := by
  intro null
  rw [null] at branch
  exact branch

omit [DecidableEq ι] in
theorem Crowded.exists_child {children : ι → Trie ι V} {value : Option V}
    (crowded : Crowded children value) : ∃ digit, children digit ≠ null := by
  rcases crowded with ⟨digit, _, _, used, _⟩ | ⟨_, digit, used⟩
  · exact ⟨digit, used⟩
  · exact ⟨digit, used⟩

/-- A canonical trie that is not empty holds a value. -/
theorem Canonical.exists_get {trie : Trie ι V} (canonical : trie.Canonical)
    (nonempty : trie ≠ null) : ∃ path value, trie.get path = some value := by
  induction trie with
  | null => exact absurd rfl nonempty
  | leaf key value => exact ⟨key, value, by simp⟩
  | ext key child induction =>
      obtain ⟨_, branch, inner⟩ := canonical
      obtain ⟨path, value, found⟩ :=
        induction inner (ne_null_of_isBranch branch)
      exact ⟨key ++ path, value, by simpa using found⟩
  | branch children value induction =>
      obtain ⟨digit, used⟩ := canonical.2.exists_child
      obtain ⟨path, value', found⟩ :=
        induction digit (canonical.1 digit) used
      exact ⟨digit :: path, value', by simpa using found⟩

/-! ## Insertion -/

/-- A single child. -/
def only (digit : ι) (trie : Trie ι V) : ι → Trie ι V :=
  Function.update (fun _ => .null) digit trie

/-- The branch that a leaf with this key becomes. -/
def branchLeaf : List ι → V → Trie ι V
  | [], value => .branch (fun _ => .null) (some value)
  | digit :: key, value => .branch (only digit (.leaf key value)) none

/-- The branch that an extension with this key becomes. -/
def branchExt : List ι → Trie ι V → Trie ι V
  | [], child => child
  | digit :: key, child => .branch (only digit (wrap key child)) none

/-- Add a value to a branch in a slot that is not in use. -/
def put : Trie ι V → List ι → V → Trie ι V
  | .branch children _, [], value => .branch children (some value)
  | .branch children old, digit :: path, value =>
      .branch (Function.update children digit (.leaf path value)) old
  | trie, _, _ => trie

/-- Part a node with key `key` from a new value; `branched` turns what is
left of the node's key into a branch. -/
def fork (branched : List ι → Trie ι V) (key path : List ι) (value : V) :
    Trie ι V :=
  wrap (key.take (shared key path))
    (put (branched (key.drop (shared key path)))
      (path.drop (shared key path)) value)

def insert : Trie ι V → List ι → V → Trie ι V
  | .null, path, value => .leaf path value
  | .leaf key old, path, value =>
      if key = path then .leaf path value
      else fork (branchLeaf · old) key path value
  | .ext key child, path, value =>
      if key <+: path then
        .ext key (child.insert (path.drop key.length) value)
      else fork (branchExt · child) key path value
  | .branch children _, [], value => .branch children (some value)
  | .branch children old, digit :: path, value =>
      .branch (Function.update children digit
        ((children digit).insert path value)) old

theorem fork_append {branched : List ι → Trie ι V}
    {common left right : List ι} (parted : Parted left right) (value : V) :
    fork branched (common ++ left) (common ++ right) value =
      wrap common (put (branched left) right value) := by
  have same : shared (common ++ left) (common ++ right) = common.length := by
    simp [shared_append, shared_of_parted parted]
  simp [fork, same]

/-- A branch made from one entry, with a second one added to it. -/
theorem get_put_branchLeaf {left right : List ι} (parted : Parted left right)
    (old value : V) (path : List ι) :
    (put (branchLeaf left old) right value).get path =
      if right = path then some value else (leaf left old).get path := by
  match left, right with
  | [], other :: right =>
      cases path with
      | nil => simp [branchLeaf, put]
      | cons digit path =>
          by_cases same : digit = other
          · subst same
            by_cases last : right = path <;> simp [branchLeaf, put, last]
          · simp [branchLeaf, put, same, Ne.symm same]
  | digit :: left, [] =>
      cases path with
      | nil => simp [branchLeaf, put]
      | cons next path =>
          by_cases same : next = digit
          · subst same
            simp [branchLeaf, put, only]
          · simp [branchLeaf, put, only, same, Ne.symm same]
  | digit :: left, other :: right =>
      have different : digit ≠ other := parted
      cases path with
      | nil => simp [branchLeaf, put]
      | cons next path =>
          by_cases added : next = other
          · subst added
            have apart : ¬ digit = next := different
            simp [branchLeaf, put, apart]
          · by_cases same : next = digit
            · subst same
              simp [branchLeaf, put, only, added, Ne.symm added]
            · simp [branchLeaf, put, only, added, same, Ne.symm added,
                Ne.symm same]

theorem get_put_branchExt {left right : List ι} (parted : Parted left right)
    (nonempty : left ≠ []) (child : Trie ι V) (value : V) (path : List ι) :
    (put (branchExt left child) right value).get path =
      if right = path then some value else (ext left child).get path := by
  obtain ⟨digit, left, rfl⟩ := List.exists_cons_of_ne_nil nonempty
  have below : ∀ path, (wrap left child).get path =
      (ext (digit :: left) child).get (digit :: path) := by
    intro path
    simp [get_wrap, get_ext, List.cons_prefix_cons]
  cases right with
  | nil =>
      cases path with
      | nil => simp [branchExt, put]
      | cons next path =>
          by_cases same : next = digit
          · subst same
            simp [branchExt, put, only, below]
          · have outside : ¬ digit :: left <+: next :: path := by
              simp [List.cons_prefix_cons, Ne.symm same]
            simp [branchExt, put, only, same,
              get_ext_off child outside]
  | cons other right =>
      have different : digit ≠ other := parted
      cases path with
      | nil => simp [branchExt, put, get_ext]
      | cons next path =>
          by_cases added : next = other
          · subst added
            have outside : ¬ digit :: left <+: next :: path := by
              simp [List.cons_prefix_cons, different]
            simp [branchExt, put, get_ext_off child outside]
          · by_cases same : next = digit
            · subst same
              simp [branchExt, put, only, added, Ne.symm added, below]
            · have outside : ¬ digit :: left <+: next :: path := by
                simp [List.cons_prefix_cons, Ne.symm same]
              simp [branchExt, put, only, added, same, Ne.symm added,
                get_ext_off child outside]

/-- Below a common prefix a fork looks like its two parts. -/
theorem get_fork {branched : List ι → Trie ι V} (rest : List ι → Trie ι V)
    {common left right : List ι} (parted : Parted left right) (value : V)
    (below : ∀ path, (put (branched left) right value).get path =
      if right = path then some value else (rest left).get path)
    (above : ∀ path, (rest (common ++ left)).get (common ++ path) =
      (rest left).get path)
    (outside : ∀ path, ¬ common <+: path →
      (rest (common ++ left)).get path = none) (path : List ι) :
    (fork branched (common ++ left) (common ++ right) value).get path =
      if common ++ right = path then some value
      else (rest (common ++ left)).get path := by
  rw [fork_append parted]
  by_cases inside : common <+: path
  · obtain ⟨path, rfl⟩ := inside
    rw [get_wrap_append, below, above]
    simp
  · have other : common ++ right ≠ path := by
      intro same
      exact inside ⟨right, same⟩
    rw [get_wrap_off _ inside, outside path inside, if_neg other]

theorem get_insert (trie : Trie ι V) (path other : List ι) (value : V) :
    (trie.insert path value).get other =
      if path = other then some value else trie.get other := by
  induction trie generalizing path other with
  | null => simp [insert]
  | leaf key old =>
      by_cases same : key = path
      · subst same
        by_cases hit : key = other <;> simp [insert, hit]
      · obtain ⟨common, left, right, rfl, rfl, parted⟩ := exists_parted same
        simp only [insert, same, if_false]
        refine get_fork (fun key => leaf key old) parted value
          (get_put_branchLeaf parted old value) ?_ ?_ other
        · intro path
          simp
        · intro path outside
          have different : common ++ left ≠ path := by
            intro hit
            exact outside ⟨left, hit⟩
          simp [different]
  | ext key child induction =>
      by_cases inside : key <+: path
      · obtain ⟨path, rfl⟩ := inside
        simp only [insert, List.prefix_append, if_true, List.drop_left]
        by_cases reached : key <+: other
        · obtain ⟨other, rfl⟩ := reached
          simp [induction]
        · have different : key ++ path ≠ other := by
            intro hit
            exact reached ⟨path, hit⟩
          simp [get_ext_off _ reached, different]
      · have different : key ≠ path := by
          intro same
          exact inside (by rw [same])
        obtain ⟨common, left, right, rfl, rfl, parted⟩ :=
          exists_parted different
        have nonempty : left ≠ [] := by
          intro none
          exact inside (by simp [none])
        simp only [insert, inside, if_false]
        refine get_fork (fun key => ext key child) parted value
          (get_put_branchExt parted nonempty child value) ?_ ?_ other
        · intro path
          simp [get_ext]
        · intro path outside
          apply get_ext_off
          intro hit
          exact outside ((List.prefix_append common left).trans hit)
  | branch children old induction =>
      cases path with
      | nil =>
          cases other with
          | nil => simp [insert]
          | cons digit other => simp [insert]
      | cons digit path =>
          cases other with
          | nil => simp [insert]
          | cons next other =>
              by_cases same : next = digit
              · subst same
                simp [insert, induction]
              · simp [insert, same, Ne.symm same]

/-! ## Insertion keeps the canonical form -/

omit [DecidableEq ι] in
theorem canonical_wrap {trie : Trie ι V} (key : List ι)
    (branch : trie.IsBranch) (canonical : trie.Canonical) :
    (wrap key trie).Canonical := by
  cases key with
  | nil => exact canonical
  | cons digit key => exact ⟨by simp, branch, canonical⟩

omit [DecidableEq ι] in
theorem wrap_ne_null {trie : Trie ι V} (key : List ι)
    (nonempty : trie ≠ null) : wrap key trie ≠ null := by
  cases key with
  | nil => exact nonempty
  | cons digit key => simp [wrap]

theorem canonical_update {children : ι → Trie ι V} {digit : ι}
    {trie : Trie ι V} (all : ∀ digit, (children digit).Canonical)
    (canonical : trie.Canonical) (other : ι) :
    (Function.update children digit trie other).Canonical := by
  by_cases same : other = digit
  · subst same
    simpa using canonical
  · simpa [same] using all other

theorem canonical_only {digit : ι} {trie : Trie ι V}
    (canonical : trie.Canonical) (other : ι) :
    (only digit trie other).Canonical := by
  have empty : ∀ digit : ι, ((fun _ => null) digit : Trie ι V).Canonical :=
    fun _ => trivial
  exact canonical_update empty canonical other

/-- The two entries of a new branch take two slots. -/
theorem canonical_put_branch {left right : List ι}
    (tail : List ι → Trie ι V) (parted : Parted left right) (value : V)
    (canonical : ∀ key, (tail key).Canonical) (used : ∀ key, tail key ≠ null)
    (digit : ι) (rest : List ι) (split : left = digit :: rest) :
    (put (branch (only digit (tail rest)) none) right value).IsBranch ∧
      (put (branch (only digit (tail rest)) none) right value).Canonical := by
  subst split
  cases right with
  | nil =>
      refine ⟨trivial, canonical_only (canonical rest), .inr ⟨by simp, ?_⟩⟩
      exact ⟨digit, by simpa [only] using used rest⟩
  | cons other right =>
      have different : digit ≠ other := parted
      refine ⟨trivial, canonical_update (canonical_only (canonical rest))
        trivial, .inl ⟨digit, other, different, ?_, by simp⟩⟩
      simpa [only, different] using used rest

theorem canonical_put_branchLeaf {left right : List ι}
    (parted : Parted left right) (old value : V) :
    (put (branchLeaf left old) right value).IsBranch ∧
      (put (branchLeaf left old) right value).Canonical := by
  cases left with
  | nil =>
      cases right with
      | nil => exact parted.elim
      | cons other right =>
          refine ⟨trivial, canonical_update (fun _ => trivial) trivial,
            .inr ⟨by simp, other, by simp⟩⟩
  | cons digit left =>
      exact canonical_put_branch (fun key => leaf key old) parted value
        (fun _ => trivial) (fun _ => by simp) digit left rfl

theorem canonical_put_branchExt {left right : List ι}
    (parted : Parted left right) (nonempty : left ≠ []) {child : Trie ι V}
    (branch : child.IsBranch) (canonical : child.Canonical) (value : V) :
    (put (branchExt left child) right value).IsBranch ∧
      (put (branchExt left child) right value).Canonical := by
  obtain ⟨digit, left, rfl⟩ := List.exists_cons_of_ne_nil nonempty
  exact canonical_put_branch (fun key => wrap key child) parted value
    (fun key => canonical_wrap key branch canonical)
    (fun key => wrap_ne_null key (ne_null_of_isBranch branch)) digit left rfl

theorem insert_ne_null (trie : Trie ι V) (path : List ι) (value : V) :
    trie.insert path value ≠ null := by
  intro empty
  have found := get_insert trie path path value
  simp [empty] at found

theorem isBranch_insert {trie : Trie ι V} (branch : trie.IsBranch)
    (path : List ι) (value : V) : (trie.insert path value).IsBranch := by
  cases trie with
  | branch children old => cases path <;> trivial
  | null => exact branch.elim
  | leaf _ _ => exact branch.elim
  | ext _ _ => exact branch.elim

theorem Canonical.insert {trie : Trie ι V} (canonical : trie.Canonical)
    (path : List ι) (value : V) : (trie.insert path value).Canonical := by
  induction trie generalizing path with
  | null => trivial
  | leaf key old =>
      by_cases same : key = path
      · simp [Trie.insert, same, Canonical]
      · obtain ⟨common, left, right, rfl, rfl, parted⟩ := exists_parted same
        obtain ⟨branch, inner⟩ := canonical_put_branchLeaf parted old value
        simp only [Trie.insert, same, if_false, fork_append parted]
        exact canonical_wrap common branch inner
  | ext key child induction =>
      obtain ⟨nonempty, branch, inner⟩ := canonical
      by_cases inside : key <+: path
      · simp only [Trie.insert, inside, if_true]
        exact ⟨nonempty, isBranch_insert branch _ _, induction inner _⟩
      · have different : key ≠ path := by
          intro same
          exact inside (by rw [same])
        obtain ⟨common, left, right, rfl, rfl, parted⟩ :=
          exists_parted different
        have longer : left ≠ [] := by
          intro none
          exact inside (by simp [none])
        obtain ⟨branch', inner'⟩ :=
          canonical_put_branchExt parted longer branch inner value
        simp only [Trie.insert, inside, if_false, fork_append parted]
        exact canonical_wrap common branch' inner'
  | branch children old induction =>
      obtain ⟨all, crowded⟩ := canonical
      cases path with
      | nil =>
          exact ⟨all, .inr ⟨by simp, crowded.exists_child⟩⟩
      | cons digit path =>
          refine ⟨canonical_update all (induction digit (all digit) path), ?_⟩
          have stays : ∀ other, children other ≠ null →
              Function.update children digit
                ((children digit).insert path value) other ≠ null := by
            intro other used
            by_cases same : other = digit
            · subst same
              simpa using insert_ne_null (children other) path value
            · simpa [same] using used
          rcases crowded with ⟨one, two, different, first, second⟩ |
            ⟨present, one, first⟩
          · exact .inl ⟨one, two, different, stays one first,
              stays two second⟩
          · exact .inr ⟨present, one, stays one first⟩

end Trie

end Patricia
