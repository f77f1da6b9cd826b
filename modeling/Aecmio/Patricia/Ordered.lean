import Aecmio.Patricia.Trie

/-!
# The values of a trie in order

A cursor stands at a value of a trie.  It knows the node that holds the value
and the branches above it, each with the digit that was taken, so that the
values that follow can be found from it.  The cursors of a trie are in the
lexicographic order of their paths, and those from a key on are found by a
descent along the key.
-/

namespace Patricia

variable {n : Nat} {V : Type*}

/-- A branch that was entered, the path to it and the digit that was taken. -/
structure Turn (n : Nat) (V : Type*) where
  children : Fin n → Trie (Fin n) V
  value : Option V
  path : List (Fin n)
  digit : Fin n

/-- A place where a trie holds a value. -/
structure Cursor (n : Nat) (V : Type*) where
  node : Trie (Fin n) V
  path : List (Fin n)
  value : V
  turns : List (Turn n V)

/-! ## Lexicographic order -/

section Order

variable {common key rest target : List (Fin n)}

theorem append_lt_append_iff :
    common ++ key < common ++ target ↔ key < target := by
  induction common with
  | nil => rfl
  | cons digit common induction =>
      rw [List.cons_append, List.cons_append, List.cons_lt_cons_iff]
      simpa using induction

theorem lt_append_cons {digit : Fin n} : common < common ++ digit :: rest := by
  induction common with
  | nil => exact List.nil_lt_cons digit rest
  | cons first common induction =>
      rw [List.cons_append, List.cons_lt_cons_iff]
      exact .inr ⟨rfl, induction⟩

theorem not_append_lt : ¬ common ++ rest < common := by
  induction common with
  | nil => exact List.not_lt_nil _
  | cons digit common induction =>
      rw [List.cons_append, List.cons_lt_cons_iff]
      simpa using induction

/-- What comes before a key comes before all that the key begins. -/
theorem not_append_lt_of_lt (before : target < key) :
    ¬ key ++ rest < target := by
  intro after
  exact not_append_lt (after.trans before)

/-- A key that parts from a target and comes before it takes along all that
it begins. -/
theorem append_lt_of_not_lt (parted : ¬ key <+: target)
    (notBefore : ¬ target < key) : key ++ rest < target := by
  induction key generalizing target with
  | nil => exact absurd List.nil_prefix parted
  | cons digit key induction =>
      cases target with
      | nil => exact absurd (List.nil_lt_cons digit key) notBefore
      | cons other target =>
          rw [List.cons_lt_cons_iff] at notBefore
          rw [List.cons_append, List.cons_lt_cons_iff]
          rcases lt_trichotomy digit other with less | same | greater
          · exact .inl less
          · apply Or.inr
            rw [List.cons_prefix_cons] at parted
            exact ⟨same, induction (fun inside => parted ⟨same, inside⟩)
              (fun before => notBefore (.inr ⟨same.symm, before⟩))⟩
          · exact absurd (.inl greater) notBefore

end Order

/-! ## Digits from one on -/

def digitsFrom (n start : Nat) : List (Fin n) := (List.finRange n).drop start

theorem digitsFrom_zero : digitsFrom n 0 = List.finRange n := rfl

theorem digitsFrom_cons (digit : Fin n) :
    digitsFrom n digit.val = digit :: digitsFrom n (digit.val + 1) := by
  have inside : digit.val < (List.finRange n).length := by
    rw [List.length_finRange]
    exact digit.isLt
  rw [digitsFrom, List.drop_eq_getElem_cons inside, List.getElem_finRange]
  rfl

theorem digitsFrom_end {start : Nat} (outside : n ≤ start) :
    digitsFrom n start = [] := by
  apply List.drop_of_length_le
  rw [List.length_finRange]
  exact outside

/-- The digits around one digit. -/
theorem digits_split (digit : Fin n) :
    List.finRange n = (List.finRange n).take digit.val ++
      digit :: digitsFrom n (digit.val + 1) := by
  rw [← digitsFrom_cons]
  exact (List.take_append_drop _ _).symm

theorem digits_split_eq {front back : List (Fin n)} {digit : Fin n}
    (split : List.finRange n = front ++ digit :: back) :
    back = digitsFrom n (digit.val + 1) := by
  have inside : front.length < (List.finRange n).length := by
    rw [split, List.length_append, List.length_cons]
    omega
  have here : (List.finRange n)[front.length] = digit := by
    simp [split]
  rw [List.getElem_finRange] at here
  have position : digit.val = front.length := by
    rw [← here]
    rfl
  rw [digitsFrom, position, split]
  simp

/-- Digits are in order. -/
theorem digits_pairwise : (List.finRange n).Pairwise (· < ·) :=
  List.pairwise_lt_finRange n

theorem digitsFrom_pairwise (start : Nat) :
    (digitsFrom n start).Pairwise (· < ·) :=
  digits_pairwise.drop

/-- The digits before one digit and those after it. -/
theorem digits_around (digit : Fin n) :
    (∀ other ∈ (List.finRange n).take digit.val, other < digit) ∧
      ∀ other ∈ digitsFrom n (digit.val + 1), digit < other := by
  have sorted := digits_pairwise (n := n)
  rw [digits_split digit, List.pairwise_append, List.pairwise_cons] at sorted
  obtain ⟨-, ⟨after, -⟩, before⟩ := sorted
  exact ⟨fun other member => before other member digit List.mem_cons_self,
    after⟩

/-! ## Cursors -/

namespace Trie

/-- The cursors of a trie at a path below some branches, in order. -/
def cursors : Trie (Fin n) V → List (Fin n) → List (Turn n V) →
    List (Cursor n V)
  | .null, _, _ => []
  | .leaf key value, path, turns => [⟨.leaf key value, path ++ key, value, turns⟩]
  | .ext key child, path, turns => child.cursors (path ++ key) turns
  | .branch children value, path, turns =>
      (value.toList.map fun found =>
        ⟨.branch children value, path, found, turns⟩) ++
      (List.finRange n).flatMap fun digit =>
        (children digit).cursors (path ++ [digit])
          (⟨children, value, path, digit⟩ :: turns)

/-- The cursors below a branch, from a child on. -/
def childCursors (children : Fin n → Trie (Fin n) V) (value : Option V)
    (path : List (Fin n)) (turns : List (Turn n V)) (start : Nat) :
    List (Cursor n V) :=
  (digitsFrom n start).flatMap fun digit =>
    (children digit).cursors (path ++ [digit])
      (⟨children, value, path, digit⟩ :: turns)

section Children

variable {children : Fin n → Trie (Fin n) V} {value : Option V}
  {path : List (Fin n)} {turns : List (Turn n V)}

theorem cursors_branch : (branch children value).cursors path turns =
    (value.toList.map fun found =>
      ⟨.branch children value, path, found, turns⟩) ++
    childCursors children value path turns 0 := rfl

theorem childCursors_cons (digit : Fin n) :
    childCursors children value path turns digit.val =
      (children digit).cursors (path ++ [digit])
        (⟨children, value, path, digit⟩ :: turns) ++
      childCursors children value path turns (digit.val + 1) := by
  rw [childCursors, digitsFrom_cons, List.flatMap_cons]
  rfl

theorem childCursors_end : childCursors children value path turns n = [] := by
  rw [childCursors, digitsFrom_end (Nat.le_refl n)]
  rfl

end Children

/-- The cursors from a key on, by a descent along the key. -/
def cursorsFrom : Trie (Fin n) V → List (Fin n) →
    List (Fin n) → List (Turn n V) → List (Cursor n V)
  | .null, _, _, _ => []
  | .leaf key value, target, path, turns =>
      if key < target then []
      else [⟨.leaf key value, path ++ key, value, turns⟩]
  | .ext key child, target, path, turns =>
      if key <+: target then
        child.cursorsFrom (target.drop key.length) (path ++ key) turns
      else if target < key then child.cursors (path ++ key) turns
      else []
  | .branch children value, [], path, turns =>
      (branch children value).cursors path turns
  | .branch children value, digit :: target, path, turns =>
      (children digit).cursorsFrom target (path ++ [digit])
        (⟨children, value, path, digit⟩ :: turns) ++
      childCursors children value path turns (digit.val + 1)

end Trie

/-- A cursor does not come before a key. -/
def Cursor.reaches (target : List (Fin n)) (cursor : Cursor n V) : Bool :=
  !decide (cursor.path < target)

theorem Cursor.reaches_iff {target : List (Fin n)} {cursor : Cursor n V} :
    cursor.reaches target = true ↔ ¬ cursor.path < target := by
  simp [reaches]

/-- The cursors that follow when all below the last branch is passed. -/
def resume : List (Turn n V) → List (Cursor n V)
  | [] => []
  | turn :: turns =>
      Trie.childCursors turn.children turn.value turn.path turns
        (turn.digit.val + 1) ++ resume turns

/-- The cursors that follow a cursor. -/
def Cursor.following (cursor : Cursor n V) : List (Cursor n V) :=
  (match cursor.node with
    | .branch children value =>
        Trie.childCursors children value cursor.path cursor.turns 0
    | _ => []) ++ resume cursor.turns

/-! ## What the cursors are -/

namespace Trie

variable {trie : Trie (Fin n) V} {path target : List (Fin n)}
  {turns : List (Turn n V)} {cursor : Cursor n V}

/-- A cursor is at a value of the trie. -/
theorem get_of_mem_cursors (member : cursor ∈ trie.cursors path turns) :
    ∃ rest, cursor.path = path ++ rest ∧
      trie.get rest = some cursor.value := by
  induction trie generalizing path turns with
  | null => cases member
  | leaf key value =>
      rw [cursors, List.mem_singleton] at member
      rw [member]
      exact ⟨key, rfl, by simp⟩
  | ext key child induction =>
      obtain ⟨rest, same, found⟩ := induction member
      refine ⟨key ++ rest, ?_, ?_⟩
      · rw [same, List.append_assoc]
      · simpa [get] using found
  | branch children value induction =>
      rw [cursors, List.mem_append, List.mem_map, List.mem_flatMap] at member
      rcases member with ⟨found, isValue, rfl⟩ | ⟨digit, -, member⟩
      · refine ⟨[], (List.append_nil path).symm, ?_⟩
        simpa using isValue
      · obtain ⟨rest, same, found⟩ := induction digit member
        refine ⟨digit :: rest, ?_, found⟩
        rw [same, List.append_assoc]
        rfl

/-- Every value of the trie has a cursor. -/
theorem exists_cursor {rest : List (Fin n)} {value : V}
    (found : trie.get rest = some value) :
    ∃ cursor ∈ trie.cursors path turns,
      cursor.path = path ++ rest ∧ cursor.value = value := by
  induction trie generalizing path turns rest with
  | null => cases found
  | leaf key held =>
      rw [get_leaf] at found
      split at found
      · rename_i same
        cases found
        exact ⟨_, List.mem_singleton_self _, by rw [same], rfl⟩
      · cases found
  | ext key child induction =>
      rw [get] at found
      split at found
      · rename_i inside
        obtain ⟨below, rfl⟩ := inside
        rw [List.drop_left] at found
        obtain ⟨cursor, member, same, held⟩ := induction found
        refine ⟨cursor, member, ?_, held⟩
        rw [same, List.append_assoc]
      · cases found
  | branch children held induction =>
      cases rest with
      | nil =>
          rw [get_branch_nil] at found
          refine ⟨_, List.mem_append_left _ (List.mem_map.mpr
            ⟨value, by simp [found], rfl⟩), ?_, rfl⟩
          exact (List.append_nil path).symm
      | cons digit rest =>
          obtain ⟨cursor, member, same, held⟩ := induction digit found
          refine ⟨cursor, List.mem_append_right _ (List.mem_flatMap.mpr
            ⟨digit, List.mem_finRange digit, member⟩), ?_, held⟩
          rw [same, List.append_assoc]
          rfl

/-- A node that holds a value itself. -/
inductive IsAt (value : V) : Trie (Fin n) V → Prop where
  | leaf (key : List (Fin n)) : IsAt value (.leaf key value)
  | branch (children : Fin n → Trie (Fin n) V) :
      IsAt value (.branch children (some value))

/-- What goes down from a node to its children holds at every cursor and at
the branches above it. -/
theorem forall_cursors {P : Trie (Fin n) V → Prop}
    (child : ∀ {key below}, P (.ext key below) → P below)
    (children : ∀ {below held}, P (.branch below held) →
      ∀ digit, P (below digit))
    (here : P trie)
    (above : ∀ turn ∈ turns, P (.branch turn.children turn.value))
    (member : cursor ∈ trie.cursors path turns) :
    P cursor.node ∧ IsAt cursor.value cursor.node ∧
      ∀ turn ∈ cursor.turns, P (.branch turn.children turn.value) := by
  induction trie generalizing path turns with
  | null => cases member
  | leaf key value =>
      rw [cursors, List.mem_singleton] at member
      rw [member]
      exact ⟨here, .leaf key, above⟩
  | ext key below induction => exact induction (child here) above member
  | branch below value induction =>
      rw [cursors, List.mem_append, List.mem_map, List.mem_flatMap] at member
      rcases member with ⟨found, isValue, rfl⟩ | ⟨digit, -, member⟩
      · rw [Option.mem_toList] at isValue
        rw [isValue] at here
        refine ⟨?_, ?_, above⟩
        · rw [isValue]
          exact here
        · rw [isValue]
          exact .branch below
      · apply induction digit (children here digit) ?_ member
        intro turn inside
        rcases List.mem_cons.mp inside with rfl | inside
        · exact here
        · exact above turn inside

/-- Paths with smaller digits after a common path come first. -/
theorem path_lt_of_digit {digit other : Fin n} {rest rest' : List (Fin n)}
    (less : digit < other) :
    path ++ [digit] ++ rest < path ++ [other] ++ rest' := by
  rw [List.append_assoc, List.append_assoc, append_lt_append_iff]
  exact List.cons_lt_cons_iff.mpr (.inl less)

/-- The cursors are in the order of their paths. -/
theorem cursors_pairwise : (trie.cursors path turns).Pairwise
    fun one other => one.path < other.path := by
  induction trie generalizing path turns with
  | null => exact .nil
  | leaf key value => exact List.pairwise_singleton _ _
  | ext key child induction => exact induction
  | branch children value induction =>
      rw [cursors, List.pairwise_append]
      refine ⟨?_, ?_, ?_⟩
      · cases value with
        | none => exact .nil
        | some found => exact List.pairwise_singleton _ _
      · rw [List.pairwise_flatMap]
        refine ⟨fun digit _ => induction digit, ?_⟩
        apply digits_pairwise.imp
        intro digit other less one member two member'
        obtain ⟨rest, same, -⟩ := get_of_mem_cursors member
        obtain ⟨rest', same', -⟩ := get_of_mem_cursors member'
        rw [same, same']
        exact path_lt_of_digit less
      · intro one member two member'
        obtain ⟨found, -, rfl⟩ := List.mem_map.mp member
        obtain ⟨digit, -, member'⟩ := List.mem_flatMap.mp member'
        obtain ⟨rest, same, -⟩ := get_of_mem_cursors member'
        rw [same, List.append_assoc]
        exact lt_append_cons

/-! ## What follows a cursor -/

/-- Where a part of a list of lists is. -/
theorem flatMap_split {α β : Type*} {part : α → List β} {items : List α}
    {before after : List β} {item : β}
    (split : items.flatMap part = before ++ item :: after) :
    ∃ front middle back start rest, items = front ++ middle :: back ∧
      part middle = start ++ item :: rest ∧
      after = rest ++ back.flatMap part := by
  induction items generalizing before with
  | nil => simp at split
  | cons first items induction =>
      rw [List.flatMap_cons, List.append_eq_append_iff] at split
      rcases split with ⟨more, rfl, inside⟩ | ⟨more, here, inside⟩
      · obtain ⟨front, middle, back, start, rest, rfl, found, same⟩ :=
          induction inside
        exact ⟨first :: front, middle, back, start, rest, rfl, found, same⟩
      · cases more with
        | nil =>
            rw [List.nil_append] at inside
            obtain ⟨front, middle, back, start, rest, rfl, found, same⟩ :=
              @induction [] inside.symm
            exact ⟨first :: front, middle, back, start, rest, rfl, found, same⟩
        | cons other more =>
            rw [List.cons_append, List.cons.injEq] at inside
            obtain ⟨rfl, rfl⟩ := inside
            exact ⟨[], first, items, before, more, rfl, here, rfl⟩

/-- What follows a cursor of a trie are the cursors behind it, and then what
follows the trie. -/
theorem following_eq {before after : List (Cursor n V)}
    (split : trie.cursors path turns = before ++ cursor :: after) :
    cursor.following = after ++ resume turns := by
  induction trie generalizing path turns before after with
  | null => simp [cursors] at split
  | leaf key value =>
      rw [cursors, List.singleton_eq_append_iff] at split
      rcases split with ⟨rfl, same⟩ | ⟨-, impossible⟩
      · rw [List.cons.injEq] at same
        obtain ⟨rfl, rfl⟩ := same
        rfl
      · cases impossible
  | ext key child induction => exact induction split
  | branch children value induction =>
      have below : ∀ {before after : List (Cursor n V)},
          childCursors children value path turns 0 =
            before ++ cursor :: after →
          cursor.following = after ++ resume turns := by
        intro before after split
        obtain ⟨front, digit, back, start, rest, digits, found, same⟩ :=
          flatMap_split split
        have follows := induction digit found
        rw [digitsFrom_zero] at digits
        rw [follows, same, digits_split_eq digits, resume, List.append_assoc]
        rfl
      rw [cursors_branch] at split
      cases value with
      | none => exact below split
      | some found =>
          cases before with
          | nil =>
              rw [Option.toList_some, List.map_singleton,
                List.singleton_append, List.nil_append,
                List.cons.injEq] at split
              obtain ⟨rfl, rfl⟩ := split
              rfl
          | cons first before =>
              rw [Option.toList_some, List.map_singleton,
                List.singleton_append, List.cons_append,
                List.cons.injEq] at split
              exact below split.2

/-! ## The cursors from a key on -/

/-- All cursors are from the path on. -/
theorem filter_reaches_nil :
    (trie.cursors path turns).filter (Cursor.reaches (path ++ [])) =
      trie.cursors path turns := by
  rw [List.filter_eq_self]
  intro cursor member
  obtain ⟨rest, same, -⟩ := get_of_mem_cursors member
  rw [Cursor.reaches_iff, same, List.append_nil]
  exact not_append_lt

/-- The descent along a key finds the cursors that do not come before it. -/
theorem cursorsFrom_eq : trie.cursorsFrom target path turns =
    (trie.cursors path turns).filter (Cursor.reaches (path ++ target)) := by
  induction trie generalizing target path turns with
  | null => rfl
  | leaf key value =>
      rw [cursorsFrom, cursors, List.filter_singleton]
      by_cases before : key < target
      · simp [Cursor.reaches, append_lt_append_iff, before]
      · simp [Cursor.reaches, append_lt_append_iff, before]
  | ext key child induction =>
      rw [cursorsFrom, cursors]
      split
      · rename_i inside
        obtain ⟨below, rfl⟩ := inside
        rw [List.drop_left, induction, List.append_assoc]
      · rename_i parted
        symm
        split
        · rename_i before
          rw [List.filter_eq_self]
          intro cursor member
          obtain ⟨rest, same, -⟩ := get_of_mem_cursors member
          rw [Cursor.reaches_iff, same, List.append_assoc,
            append_lt_append_iff]
          exact not_append_lt_of_lt before
        · rename_i notBefore
          rw [List.filter_eq_nil_iff]
          intro cursor member
          obtain ⟨rest, same, -⟩ := get_of_mem_cursors member
          rw [Cursor.reaches_iff, same, List.append_assoc,
            append_lt_append_iff, not_not]
          exact append_lt_of_not_lt parted notBefore
  | branch children value induction =>
      cases target with
      | nil =>
          rw [cursorsFrom]
          exact filter_reaches_nil.symm
      | cons digit target =>
          obtain ⟨smaller, greater⟩ := digits_around digit
          have here : (value.toList.map fun found => (⟨.branch children value,
              path, found, turns⟩ : Cursor n V)).filter
                (Cursor.reaches (path ++ digit :: target)) = [] := by
            rw [List.filter_eq_nil_iff]
            intro cursor member
            obtain ⟨found, -, rfl⟩ := List.mem_map.mp member
            rw [Cursor.reaches_iff, not_not]
            exact lt_append_cons
          have front : (((List.finRange n).take digit.val).flatMap fun other =>
              (children other).cursors (path ++ [other])
                (⟨children, value, path, other⟩ :: turns)).filter
                (Cursor.reaches (path ++ digit :: target)) = [] := by
            rw [List.filter_eq_nil_iff]
            intro cursor member
            obtain ⟨other, isSmaller, member⟩ := List.mem_flatMap.mp member
            obtain ⟨rest, same, -⟩ := get_of_mem_cursors member
            rw [Cursor.reaches_iff, not_not, same, List.append_assoc,
              append_lt_append_iff]
            exact List.cons_lt_cons_iff.mpr (.inl (smaller other isSmaller))
          have back : (childCursors children value path turns
              (digit.val + 1)).filter
                (Cursor.reaches (path ++ digit :: target)) =
              childCursors children value path turns (digit.val + 1) := by
            rw [List.filter_eq_self]
            intro cursor member
            obtain ⟨other, isGreater, member⟩ := List.mem_flatMap.mp member
            obtain ⟨rest, same, -⟩ := get_of_mem_cursors member
            rw [Cursor.reaches_iff, same, List.append_assoc,
              append_lt_append_iff]
            apply lt_asymm
            exact List.cons_lt_cons_iff.mpr (.inl (greater other isGreater))
          have whole : (branch children value).cursors path turns =
              (value.toList.map fun found =>
                (⟨.branch children value, path, found, turns⟩ :
                  Cursor n V)) ++
              ((((List.finRange n).take digit.val).flatMap fun other =>
                (children other).cursors (path ++ [other])
                  (⟨children, value, path, other⟩ :: turns)) ++
              ((children digit).cursors (path ++ [digit])
                (⟨children, value, path, digit⟩ :: turns) ++
              childCursors children value path turns (digit.val + 1))) := by
            conv_lhs => rw [cursors, digits_split digit, List.flatMap_append,
              List.flatMap_cons]
            rfl
          rw [cursorsFrom, whole, List.filter_append, List.filter_append,
            List.filter_append, here, front, back, induction,
            List.append_assoc path]
          rfl

theorem cursorsFrom_nil :
    trie.cursorsFrom [] path turns = trie.cursors path turns :=
  cursorsFrom_eq.trans filter_reaches_nil

end Trie

end Patricia
