import Aecmio.Patricia.Trie

/-!
# Erasing from Patricia tries

Erasure reports `none` when the key is not there.  Otherwise it removes the
entry and compresses what is left: a branch with one slot in use is merged
into that slot, and runs of digits that meet are joined.
-/

namespace Patricia

namespace Trie

variable {ι V : Type*} [DecidableEq ι]

/-- Digits above a trie, joined with the digits at its top. -/
def graft (key : List ι) : Trie ι V → Trie ι V
  | .leaf below value => .leaf (key ++ below) value
  | .ext below child => .ext (key ++ below) child
  | trie => .ext key trie

open Classical in
/-- A branch, compressed if only one of its slots is in use. -/
noncomputable def collapse (children : ι → Trie ι V) (value : Option V) :
    Trie ι V :=
  if single : ∃ digit, children digit ≠ null ∧
      (∀ other, other ≠ digit → children other = null) ∧ value = none then
    graft [single.choose] (children single.choose)
  else
    match value with
    | some kept =>
        if ∀ digit, children digit = null then .leaf [] kept
        else .branch children value
    | none => .branch children value

noncomputable def erase : Trie ι V → List ι → Option (Trie ι V)
  | .null, _ => none
  | .leaf key _, path => if key = path then some .null else none
  | .ext key child, path =>
      if key <+: path then
        (child.erase (path.drop key.length)).map (graft key)
      else none
  | .branch children value, [] =>
      if value = none then none else some (collapse children none)
  | .branch children value, digit :: path =>
      ((children digit).erase path).map fun child =>
        collapse (Function.update children digit child) value

/-! ## Collapsing -/

omit [DecidableEq ι] in
theorem collapse_child {children : ι → Trie ι V} {digit : ι}
    (used : children digit ≠ null)
    (others : ∀ other, other ≠ digit → children other = null) :
    collapse children none = graft [digit] (children digit) := by
  have single : ∃ digit, children digit ≠ null ∧
      (∀ other, other ≠ digit → children other = null) ∧
        (none : Option V) = none := ⟨digit, used, others, rfl⟩
  have chosen : single.choose = digit := by
    by_contra different
    exact single.choose_spec.1 (others _ different)
  rw [collapse, dif_pos single, chosen]

omit [DecidableEq ι] in
theorem collapse_value {children : ι → Trie ι V} (value : V)
    (unused : ∀ digit, children digit = null) :
    collapse children (some value) = .leaf [] value := by
  simp [collapse, unused]

omit [DecidableEq ι] in
theorem collapse_crowded {children : ι → Trie ι V} {value : Option V}
    (crowded : Crowded children value) :
    collapse children value = .branch children value := by
  have several : ¬ ∃ digit, children digit ≠ null ∧
      (∀ other, other ≠ digit → children other = null) ∧ value = none := by
    rintro ⟨digit, used, others, absent⟩
    rcases crowded with ⟨one, two, different, first, second⟩ | ⟨present, _⟩
    · by_cases same : one = digit
      · exact second (others two (fun hit => different (by rw [same, hit])))
      · exact first (others one same)
    · exact present absent
  obtain ⟨digit, used⟩ := crowded.exists_child
  rw [collapse, dif_neg several]
  cases value with
  | none => rfl
  | some kept =>
      have notAll : ¬ ∀ digit, children digit = null := by
        intro all
        exact used (all digit)
      simp [notAll]

omit [DecidableEq ι] in
/-- How many slots of a branch are in use. -/
theorem slots_cases (children : ι → Trie ι V) (value : Option V) :
    Crowded children value ∨
    (value = none ∧ ∃ digit, children digit ≠ null ∧
      ∀ other, other ≠ digit → children other = null) ∨
    (∀ digit, children digit = null) := by
  by_cases all : ∀ digit, children digit = null
  · exact .inr (.inr all)
  obtain ⟨digit, used⟩ := not_forall.mp all
  by_cases absent : value = none
  · by_cases others : ∀ other, other ≠ digit → children other = null
    · exact .inr (.inl ⟨absent, digit, used, others⟩)
    · push Not at others
      obtain ⟨other, different, second⟩ := others
      exact .inl (.inl ⟨other, digit, different, second, used⟩)
  · exact .inl (.inr ⟨absent, digit, used⟩)

theorem get_graft (key path : List ι) (trie : Trie ι V) :
    (graft key trie).get path = (ext key trie).get path := by
  cases trie with
  | leaf below value =>
      by_cases inside : key <+: path
      · obtain ⟨path, rfl⟩ := inside
        simp [graft]
      · have different : key ++ below ≠ path := by
          intro hit
          exact inside ⟨below, hit⟩
        simp [graft, get_ext_off _ inside, different]
  | ext below child =>
      by_cases inside : key <+: path
      · obtain ⟨path, rfl⟩ := inside
        simp [graft, get_ext]
      · have outside : ¬ key ++ below <+: path := by
          intro hit
          exact inside ((List.prefix_append key below).trans hit)
        simp [graft, get_ext_off _ inside,
          get_ext_off _ outside]
  | null => rfl
  | branch children value => rfl

theorem get_collapse (children : ι → Trie ι V) (value : Option V)
    (path : List ι) :
    (collapse children value).get path = (branch children value).get path := by
  rcases slots_cases children value with
    crowded | ⟨rfl, digit, used, others⟩ | unused
  · rw [collapse_crowded crowded]
  · rw [collapse_child used others, get_graft]
    cases path with
    | nil => simp [get_ext]
    | cons next path =>
        by_cases same : digit = next
        · subst same
          have split : digit :: path = [digit] ++ path := rfl
          rw [split, get_ext_append]
          rfl
        · have outside : ¬ [digit] <+: next :: path := by
            simp [List.cons_prefix_cons, same]
          simp [get_ext_off _ outside, others next (Ne.symm same)]
  · cases value with
    | none =>
        have nothing : collapse children none = branch children none := by
          simp [collapse, unused]
        rw [nothing]
    | some kept =>
        rw [collapse_value kept unused]
        cases path with
        | nil => simp
        | cons next path => simp [unused]

/-! ## Erasure on lookups -/

theorem erase_eq_none_iff (trie : Trie ι V) (path : List ι) :
    trie.erase path = none ↔ trie.get path = none := by
  induction trie generalizing path with
  | null => simp [erase]
  | leaf key value => by_cases same : key = path <;> simp [erase, same]
  | ext key child induction =>
      by_cases inside : key <+: path
      · simp [erase, get_ext, inside, induction]
      · simp [erase, get_ext, inside]
  | branch children value induction =>
      cases path with
      | nil => cases value <;> simp [erase]
      | cons digit path => simp [erase, induction]

theorem get_erase {trie erased : Trie ι V} {path : List ι}
    (result : trie.erase path = some erased) (other : List ι) :
    erased.get other = if path = other then none else trie.get other := by
  induction trie generalizing path other erased with
  | null => simp [erase] at result
  | leaf key value =>
      by_cases same : key = path
      · simp only [erase, same, if_true, Option.some.injEq] at result
        subst same
        by_cases hit : key = other <;> simp [← result, hit]
      · simp [erase, same] at result
  | ext key child induction =>
      by_cases inside : key <+: path
      · obtain ⟨path, rfl⟩ := inside
        simp only [erase, List.prefix_append, if_true, List.drop_left,
          Option.map_eq_some_iff] at result
        obtain ⟨child', inner, rfl⟩ := result
        rw [get_graft]
        by_cases reached : key <+: other
        · obtain ⟨other, rfl⟩ := reached
          simp [induction inner]
        · have different : key ++ path ≠ other := by
            intro hit
            exact reached ⟨path, hit⟩
          simp [get_ext_off _ reached]
      · simp [erase, inside] at result
  | branch children value induction =>
      cases path with
      | nil =>
          cases value with
          | none => simp [erase] at result
          | some kept =>
              simp only [erase, reduceCtorEq, if_false, Option.some.injEq]
                at result
              rw [← result, get_collapse]
              cases other <;> simp
      | cons digit path =>
          simp only [erase, Option.map_eq_some_iff] at result
          obtain ⟨child, inner, rfl⟩ := result
          rw [get_collapse]
          cases other with
          | nil => simp
          | cons next other =>
              by_cases same : next = digit
              · subst same
                simp [induction next inner]
              · simp [same, Ne.symm same]

/-! ## Erasure keeps the canonical form -/

omit [DecidableEq ι] in
theorem Canonical.graft {trie : Trie ι V} {key : List ι}
    (canonical : trie.Canonical) (nonempty : key ≠ []) (used : trie ≠ null) :
    (trie.graft key).Canonical := by
  cases trie with
  | null => exact absurd rfl used
  | leaf below value => trivial
  | ext below child =>
      obtain ⟨_, branch, inner⟩ := canonical
      exact ⟨by simp [nonempty], branch, inner⟩
  | branch children value => exact ⟨nonempty, trivial, canonical⟩

/-- A branch with a slot in use collapses to a canonical trie. -/
theorem Canonical.collapse {children : ι → Trie ι V} {value : Option V}
    (all : ∀ digit, (children digit).Canonical)
    (used : value ≠ none ∨ ∃ digit, children digit ≠ null) :
    (collapse children value).Canonical ∧ collapse children value ≠ null := by
  rcases slots_cases children value with
    crowded | ⟨rfl, digit, child, others⟩ | unused
  · rw [collapse_crowded crowded]
    exact ⟨⟨all, crowded⟩, by simp⟩
  · rw [collapse_child child others]
    refine ⟨(all digit).graft (by simp) child, ?_⟩
    cases children digit <;> simp [Trie.graft]
  · rcases used with present | ⟨digit, child⟩
    · obtain ⟨kept, rfl⟩ := Option.ne_none_iff_exists'.mp present
      rw [collapse_value kept unused]
      exact ⟨trivial, by simp⟩
    · exact absurd (unused digit) child

/-- Rewriting one slot of a crowded branch leaves a slot in use. -/
theorem Crowded.update {children : ι → Trie ι V} {value : Option V}
    (crowded : Crowded children value) (digit : ι) (child : Trie ι V) :
    value ≠ none ∨
      ∃ other, Function.update children digit child other ≠ null := by
  rcases crowded with ⟨one, two, different, first, second⟩ | ⟨present, _⟩
  · by_cases same : one = digit
    · have apart : two ≠ digit := by
        intro hit
        exact different (by rw [same, hit])
      exact .inr ⟨two, by simpa [apart] using second⟩
    · exact .inr ⟨one, by simpa [same] using first⟩
  · exact .inl present

theorem Canonical.erase {trie erased : Trie ι V} {path : List ι}
    (canonical : trie.Canonical) (result : trie.erase path = some erased) :
    erased.Canonical ∧ (trie.IsBranch → erased ≠ null) := by
  induction trie generalizing path erased with
  | null => simp [Trie.erase] at result
  | leaf key value =>
      by_cases same : key = path
      · simp only [Trie.erase, same, if_true, Option.some.injEq] at result
        rw [← result]
        exact ⟨trivial, fun branch => branch.elim⟩
      · simp [Trie.erase, same] at result
  | ext key child induction =>
      obtain ⟨nonempty, branch, inner⟩ := canonical
      by_cases inside : key <+: path
      · simp only [Trie.erase, inside, if_true, Option.map_eq_some_iff]
          at result
        obtain ⟨child', erased', rfl⟩ := result
        obtain ⟨canonical', used⟩ := induction inner erased'
        exact ⟨canonical'.graft nonempty (used branch),
          fun branch => branch.elim⟩
      · simp [Trie.erase, inside] at result
  | branch children value induction =>
      obtain ⟨all, crowded⟩ := canonical
      cases path with
      | nil =>
          cases value with
          | none => simp [Trie.erase] at result
          | some kept =>
              simp only [Trie.erase, reduceCtorEq, if_false,
                Option.some.injEq] at result
              have collapsed : (Trie.collapse children none).Canonical ∧
                  Trie.collapse children none ≠ null :=
                Canonical.collapse all (.inr crowded.exists_child)
              rw [result] at collapsed
              exact ⟨collapsed.1, fun _ => collapsed.2⟩
      | cons digit path =>
          simp only [Trie.erase, Option.map_eq_some_iff] at result
          obtain ⟨child, inner, rfl⟩ := result
          have child' := (induction digit (all digit) inner).1
          have collapsed := Canonical.collapse
            (canonical_update all child') (crowded.update digit child)
          exact ⟨collapsed.1, fun _ => collapsed.2⟩

end Trie

end Patricia
