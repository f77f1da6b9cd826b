import Aecmio.Trie.Encoding

/-!
# Where removal works

`deleteAt` does not work on every path.  The structural condition that its
proof uses is the same as three conditions on what the trie holds.
-/

namespace Aecmio

open Patricia Patricia.Trie

/-- The paths along which `deleteAt` works: it does not run past a leaf, it
does not end at a branch that has no value, and where a branch collapses into
its value, the value is not taken for a reference (`plain`). -/
def Removable (plain : TrieValue → Prop) : Node → List Nibble → Prop
  | .null, _ => True
  | .leaf key _, path => key <+: path → key = path
  | .ext key child, path =>
      key <+: path → Removable plain child (path.drop key.length)
  | .branch _ value, [] => value ≠ none
  | .branch children value, digit :: path =>
      Removable plain (children digit) path ∧
        ∀ held, value = some held →
          (∀ other, other ≠ digit → children other = .null) →
          (∃ last, children digit = .leaf path last) → plain held

section Conditions

variable (get : List Nibble → Option TrieValue) (path : List Nibble)

/-- The path is not there, but two entries part right after it. -/
def StopsInside : Prop :=
  get path = none ∧ ∃ one two left right, one ≠ two ∧
    (get (path ++ one :: left)).isSome ∧ (get (path ++ two :: right)).isSome

/-- An entry that nothing else continues is continued by the path. -/
def RunsPast : Prop :=
  ∃ before, before <+: path ∧ before ≠ path ∧ (get before).isSome ∧
    ∀ other, (get other).isSome → before <+: other → other = before

/-- The path is the only entry that continues one with the given value. -/
def LeavesValue (held : TrieValue) : Prop :=
  (get path).isSome ∧ ∃ before, before <+: path ∧ before ≠ path ∧
    get before = some held ∧
    ∀ other, (get other).isSome → before <+: other →
      other = before ∨ other = path

end Conditions

/-- A canonical branch holds entries that part at once. -/
theorem exists_entries {children : Nibble → Node} {value : Option TrieValue}
    (canonical : (Trie.branch children value).Canonical) :
    ∃ left right, left ≠ right ∧
      ((Trie.branch children value).get left).isSome ∧
      ((Trie.branch children value).get right).isSome := by
  have child : ∀ digit, children digit ≠ .null →
      ∃ path, ((Trie.branch children value).get (digit :: path)).isSome := by
    intro digit used
    obtain ⟨path, held, found⟩ := (canonical.1 digit).exists_get used
    exact ⟨path, by simp [found]⟩
  rcases canonical.2 with ⟨one, two, different, used₁, used₂⟩ |
    ⟨present, one, used⟩
  · obtain ⟨left, found₁⟩ := child one used₁
    obtain ⟨right, found₂⟩ := child two used₂
    exact ⟨one :: left, two :: right, by simp [different], found₁, found₂⟩
  · obtain ⟨left, found⟩ := child one used
    refine ⟨one :: left, [], by simp, found, ?_⟩
    rw [get_branch_nil]
    exact Option.isSome_iff_ne_none.mpr present

/-- A trie with one entry is a leaf. -/
theorem exists_leaf_of_single {node : Node} (canonical : node.Canonical)
    {path : List Nibble} (here : (node.get path).isSome)
    (single : ∀ other, (node.get other).isSome → other = path) :
    ∃ last, node = .leaf path last := by
  cases node with
  | null => simp at here
  | leaf key value =>
      have same : key = path := single key (by simp)
      exact ⟨value, by rw [same]⟩
  | ext key child =>
      obtain ⟨_, branch, inner⟩ := canonical
      cases child with
      | null => exact branch.elim
      | leaf key value => exact branch.elim
      | ext key child => exact branch.elim
      | branch children value =>
          obtain ⟨left, right, different, found₁, found₂⟩ :=
            exists_entries inner
          have first := single (key ++ left) (by simpa using found₁)
          have second := single (key ++ right) (by simpa using found₂)
          exact absurd (List.append_cancel_left (first.trans second.symm))
            different
  | branch children value =>
      obtain ⟨left, right, different, found₁, found₂⟩ :=
        exists_entries canonical
      exact absurd ((single left found₁).trans (single right found₂).symm)
        different

/-! ## Leaves and extensions -/

section Leaves

variable {key path : List Nibble} {value : TrieValue}

theorem isSome_get_leaf {other : List Nibble} :
    (get (.leaf key value : Node) other).isSome ↔ other = key := by
  rw [get_leaf]
  by_cases same : key = other
  · simp [same]
  · simp [same, Ne.symm same]

theorem removable_leaf_iff {plain : TrieValue → Prop} :
    Removable plain (.leaf key value) path ↔
      ¬ StopsInside (get (.leaf key value)) path ∧
      ¬ RunsPast (get (.leaf key value)) path ∧
      ∀ held, LeavesValue (get (.leaf key value)) path held → plain held := by
  have stops : ¬ StopsInside (get (.leaf key value)) path := by
    rintro ⟨_, one, two, left, right, different, first, second⟩
    rw [isSome_get_leaf] at first second
    have same := List.append_cancel_left (first.trans second.symm)
    exact different (List.cons.inj same).1
  have leaves : ∀ held, ¬ LeavesValue (get (.leaf key value)) path held := by
    rintro held ⟨here, before, _, different, found, _⟩
    have second : before = key := isSome_get_leaf.mp (by rw [found]; rfl)
    exact different (second.trans (isSome_get_leaf.mp here).symm)
  have past : RunsPast (get (.leaf key value)) path ↔
      key <+: path ∧ key ≠ path := by
    constructor
    · rintro ⟨before, inside, different, found, _⟩
      rw [isSome_get_leaf.mp found] at inside different
      exact ⟨inside, different⟩
    · rintro ⟨inside, different⟩
      exact ⟨key, inside, different, isSome_get_leaf.mpr rfl,
        fun other found _ => isSome_get_leaf.mp found⟩
  rw [past]
  simp only [stops, leaves, not_false_eq_true, true_and, false_implies,
    implies_true, and_true, not_and, not_not]
  rfl

end Leaves

section Extensions

variable {key path : List Nibble} {child : Node}

theorem isSome_get_ext {other : List Nibble} :
    (get (.ext key child : Node) other).isSome ↔
      ∃ rest, other = key ++ rest ∧ (child.get rest).isSome := by
  constructor
  · intro found
    by_cases inside : key <+: other
    · obtain ⟨rest, rfl⟩ := inside
      exact ⟨rest, rfl, by simpa using found⟩
    · rw [get_ext_off child inside] at found
      cases found
  · rintro ⟨rest, rfl, found⟩
    simpa using found

theorem stopsInside_ext :
    StopsInside (get (.ext key child)) (key ++ path) ↔
      StopsInside child.get path := by
  simp only [StopsInside, List.append_assoc, get_ext_append]

theorem runsPast_ext :
    RunsPast (get (.ext key child)) (key ++ path) ↔
      RunsPast child.get path := by
  constructor
  · rintro ⟨before, inside, different, found, alone⟩
    obtain ⟨rest, rfl, held⟩ := isSome_get_ext.mp found
    refine ⟨rest, (List.prefix_append_right_inj key).mp inside,
      fun same => different (by rw [same]), held, ?_⟩
    intro other present after
    have whole := alone (key ++ other) (by simpa using present)
      ((List.prefix_append_right_inj key).mpr after)
    exact List.append_cancel_left whole
  · rintro ⟨before, inside, different, found, alone⟩
    refine ⟨key ++ before, (List.prefix_append_right_inj key).mpr inside,
      fun same => different (List.append_cancel_left same),
      by simpa using found, ?_⟩
    intro other present after
    obtain ⟨rest, rfl, held⟩ := isSome_get_ext.mp present
    rw [alone rest held ((List.prefix_append_right_inj key).mp after)]

theorem leavesValue_ext {held : TrieValue} :
    LeavesValue (get (.ext key child)) (key ++ path) held ↔
      LeavesValue child.get path held := by
  constructor
  · rintro ⟨here, before, inside, different, found, alone⟩
    obtain ⟨rest, rfl, _⟩ := isSome_get_ext.mp
      (show (get (.ext key child) before).isSome by rw [found]; rfl)
    refine ⟨by simpa using here, rest,
      (List.prefix_append_right_inj key).mp inside,
      fun same => different (by rw [same]), by simpa using found, ?_⟩
    intro other present after
    have whole := alone (key ++ other) (by simpa using present)
      ((List.prefix_append_right_inj key).mpr after)
    exact whole.imp List.append_cancel_left List.append_cancel_left
  · rintro ⟨here, before, inside, different, found, alone⟩
    refine ⟨by simpa using here, key ++ before,
      (List.prefix_append_right_inj key).mpr inside,
      fun same => different (List.append_cancel_left same),
      by simpa using found, ?_⟩
    intro other present after
    obtain ⟨rest, rfl, held⟩ := isSome_get_ext.mp present
    have cases := alone rest held
      ((List.prefix_append_right_inj key).mp after)
    exact cases.imp (fun same => by rw [same]) (fun same => by rw [same])

/-- Off the extension nothing can go wrong. -/
theorem conditions_off_ext (child : Node) (outside : ¬ key <+: path) :
    ¬ StopsInside (get (.ext key child)) path ∧
      ¬ RunsPast (get (.ext key child)) path ∧
      ∀ held, ¬ LeavesValue (get (.ext key child)) path held := by
  have below : ∀ other, (get (.ext key child : Node) other).isSome →
      key <+: other := by
    intro other found
    obtain ⟨rest, rfl, _⟩ := isSome_get_ext.mp found
    exact List.prefix_append key rest
  have longer : ∀ digit rest, key <+: path ++ digit :: rest →
      path ++ [digit] <+: key := by
    intro digit rest inside
    rcases List.prefix_or_prefix_of_prefix inside
      (show path ++ [digit] <+: path ++ digit :: rest by simp) with
      shorter | longer
    · rcases List.prefix_concat_iff.mp shorter with same | within
      · rw [same]
      · exact absurd within outside
    · exact longer
  refine ⟨?_, ?_, ?_⟩
  · rintro ⟨_, one, two, left, right, different, first, second⟩
    obtain ⟨rest₁, same₁⟩ := longer one left (below _ first)
    obtain ⟨rest₂, same₂⟩ := longer two right (below _ second)
    have same := same₁.trans same₂.symm
    rw [List.append_assoc, List.append_assoc] at same
    exact different (List.cons.inj (List.append_cancel_left same)).1
  · rintro ⟨before, inside, _, found, _⟩
    exact outside ((below before found).trans inside)
  · rintro held ⟨here, _⟩
    exact outside (below path here)

end Extensions

/-! ## Branches -/

section Branches

variable {children : Nibble → Node} {value : Option TrieValue}
  {digit : Nibble} {path : List Nibble}

theorem stopsInside_branch_nil
    (canonical : (Trie.branch children value).Canonical) :
    StopsInside (get (.branch children value)) [] ↔ value = none := by
  constructor
  · rintro ⟨absent, _⟩
    simpa using absent
  · rintro rfl
    rcases canonical.2 with ⟨one, two, different, used₁, used₂⟩ |
      ⟨present, _⟩
    · obtain ⟨left, _, found₁⟩ := (canonical.1 one).exists_get used₁
      obtain ⟨right, _, found₂⟩ := (canonical.1 two).exists_get used₂
      exact ⟨rfl, one, two, left, right, different, by simp [found₁],
        by simp [found₂]⟩
    · exact absurd rfl present

theorem stopsInside_branch_cons :
    StopsInside (get (.branch children value)) (digit :: path) ↔
      StopsInside (children digit).get path := by
  simp only [StopsInside, List.cons_append, get_branch_cons]

theorem runsPast_branch_cons
    (canonical : (Trie.branch children value).Canonical) :
    RunsPast (get (.branch children value)) (digit :: path) ↔
      RunsPast (children digit).get path := by
  constructor
  · rintro ⟨before, inside, different, found, alone⟩
    cases before with
    | nil =>
        obtain ⟨left, right, apart, found₁, found₂⟩ :=
          exists_entries canonical
        have first := alone left found₁ (List.nil_prefix)
        have second := alone right found₂ (List.nil_prefix)
        exact absurd (first.trans second.symm) apart
    | cons head before =>
        obtain ⟨rfl, within⟩ := List.cons_prefix_cons.mp inside
        refine ⟨before, within, fun same => different (by rw [same]),
          by simpa using found, ?_⟩
        intro other present after
        have whole := alone (head :: other) (by simpa using present)
          (List.cons_prefix_cons.mpr ⟨rfl, after⟩)
        exact (List.cons.inj whole).2
  · rintro ⟨before, inside, different, found, alone⟩
    refine ⟨digit :: before, List.cons_prefix_cons.mpr ⟨rfl, inside⟩,
      fun same => different (List.cons.inj same).2, by simpa using found, ?_⟩
    intro other present after
    cases other with
    | nil => simp at after
    | cons head other =>
        obtain ⟨rfl, within⟩ := List.cons_prefix_cons.mp after
        rw [alone other (by simpa using present) within]

theorem leavesValue_branch_cons {held : TrieValue}
    (canonical : (Trie.branch children value).Canonical) :
    LeavesValue (get (.branch children value)) (digit :: path) held ↔
      (value = some held ∧
        (∀ other, other ≠ digit → children other = .null) ∧
        ∃ last, children digit = .leaf path last) ∨
      LeavesValue (children digit).get path held := by
  constructor
  · rintro ⟨here, before, inside, different, found, alone⟩
    cases before with
    | nil =>
        refine .inl ⟨by simpa using found, ?_, ?_⟩
        · intro other apart
          by_contra used
          obtain ⟨rest, _, present⟩ := (canonical.1 other).exists_get used
          rcases alone (other :: rest) (by simp [present]) List.nil_prefix with
            same | same
          · cases same
          · exact apart (List.cons.inj same).1
        · refine exists_leaf_of_single (canonical.1 digit)
            (by simpa using here) ?_
          intro other present
          rcases alone (digit :: other) (by simpa using present)
            List.nil_prefix with same | same
          · cases same
          · exact (List.cons.inj same).2
    | cons head before =>
        obtain ⟨rfl, within⟩ := List.cons_prefix_cons.mp inside
        refine .inr ⟨by simpa using here, before, within,
          fun same => different (by rw [same]), by simpa using found, ?_⟩
        intro other present after
        rcases alone (head :: other) (by simpa using present)
          (List.cons_prefix_cons.mpr ⟨rfl, after⟩) with same | same
        · exact .inl (List.cons.inj same).2
        · exact .inr (List.cons.inj same).2
  · rintro (⟨present, others, last, leaf⟩ |
      ⟨here, before, inside, different, found, alone⟩)
    · refine ⟨by simp [leaf], [], List.nil_prefix, by simp,
        by simpa using present, ?_⟩
      intro other found _
      cases other with
      | nil => exact .inl rfl
      | cons head other =>
          by_cases same : head = digit
          · subst same
            rw [get_branch_cons, leaf, isSome_get_leaf] at found
            exact .inr (by rw [found])
          · rw [get_branch_cons, others head same] at found
            cases found
    · refine ⟨by simpa using here, digit :: before,
        List.cons_prefix_cons.mpr ⟨rfl, inside⟩,
        fun same => different (List.cons.inj same).2, by simpa using found,
        ?_⟩
      intro other present after
      cases other with
      | nil => simp at after
      | cons head other =>
          obtain ⟨rfl, within⟩ := List.cons_prefix_cons.mp after
          exact (alone other (by simpa using present) within).imp
            (fun same => by rw [same]) (fun same => by rw [same])

end Branches

/-- The structural condition in terms of the entries. -/
theorem removable_iff {plain : TrieValue → Prop} {node : Node}
    (canonical : node.Canonical) (path : List Nibble) :
    Removable plain node path ↔
      ¬ StopsInside node.get path ∧ ¬ RunsPast node.get path ∧
        ∀ held, LeavesValue node.get path held → plain held := by
  induction node generalizing path with
  | null => simp [Removable, StopsInside, RunsPast, LeavesValue]
  | leaf key value => exact removable_leaf_iff
  | ext key child induction =>
      unfold Removable
      by_cases inside : key <+: path
      · obtain ⟨rest, rfl⟩ := inside
        rw [stopsInside_ext, runsPast_ext, List.drop_left,
          induction canonical.2.2]
        simp only [leavesValue_ext, List.prefix_append, true_implies]
      · obtain ⟨stops, past, leaves⟩ := conditions_off_ext child inside
        simp only [stops, past, leaves, inside, false_implies, implies_true,
          not_false_eq_true, and_self]
  | branch children value induction =>
      cases path with
      | nil =>
          have past : ¬ RunsPast (get (.branch children value)) [] := by
            rintro ⟨before, inside, different, _⟩
            exact different (List.prefix_nil.mp inside)
          have leaves : ∀ held,
              ¬ LeavesValue (get (.branch children value)) [] held := by
            rintro held ⟨_, before, inside, different, _⟩
            exact different (List.prefix_nil.mp inside)
          rw [stopsInside_branch_nil canonical]
          simp [Removable, past, leaves]
      | cons digit path =>
          unfold Removable
          rw [stopsInside_branch_cons, runsPast_branch_cons canonical,
            induction digit (canonical.1 digit)]
          simp only [leavesValue_branch_cons canonical]
          constructor
          · rintro ⟨⟨stops, past, below⟩, here⟩
            refine ⟨stops, past, ?_⟩
            rintro held (⟨present, others, leaf⟩ | leaves)
            · exact here held present others leaf
            · exact below held leaves
          · rintro ⟨stops, past, both⟩
            refine ⟨⟨stops, past, fun held leaves => both held (.inr leaves)⟩,
              ?_⟩
            intro held present others leaf
            exact both held (.inl ⟨present, others, leaf⟩)

end Aecmio
