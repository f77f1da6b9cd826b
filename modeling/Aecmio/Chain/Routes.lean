import Aecmio.Chain.BlockChain
import Aecmio.Logic.Ancestry

/-!
# Routes between blocks

The details of the blocks make up a tree.  `treeRoute` goes up from two blocks
to the lowest one that both descend from, and lists the blocks on its way.
-/

namespace Aecmio

namespace BlockChain

open Ancestry

variable {store : Store}

/-- A block whose details are stored. -/
def Known (store : Store) (hash : H256) : Prop :=
  (store.details hash).isSome

namespace Store

theorem detailsOf_eq {hash : H256} {details : BlockDetails}
    (found : store.details hash = some details) :
    store.detailsOf hash = details := by
  rw [detailsOf, found, Option.getD_some]

theorem parent_eq {hash : H256} {details : BlockDetails}
    (found : store.details hash = some details) :
    store.parent hash = details.parent := by
  rw [parent, detailsOf_eq found]

theorem number_eq {hash : H256} {details : BlockDetails}
    (found : store.details hash = some details) :
    store.number hash = details.number := by
  rw [number, detailsOf_eq found]

/-- How far a block is below the root. -/
def depth (store : Store) (root hash : H256) : Nat :=
  store.number hash - store.number root

end Store

/-- The details of the blocks make up a tree. -/
structure Branching (store : Store) (root : H256) : Prop where
  root_known : Known store root
  nonzero : ∀ hash, Known store hash → hash ≠ zeroHash 32
  number_lt : ∀ hash, Known store hash → store.number hash < c_invalidNumber
  parent_known : ∀ hash, Known store hash → hash ≠ root →
    Known store (store.parent hash)
  number_eq : ∀ hash, Known store hash → hash ≠ root →
    store.number hash = store.number (store.parent hash) + 1

namespace Branching

variable {root : H256}

theorem number_root_le (branching : Branching store root) {hash : H256}
    (known : Known store hash) : store.number root ≤ store.number hash := by
  generalize height : store.number hash = number
  induction number generalizing hash with
  | zero =>
      by_cases atRoot : hash = root
      · rw [← atRoot, height]
      · have above := branching.number_eq hash known atRoot
        omega
  | succ number induction =>
      by_cases atRoot : hash = root
      · rw [← atRoot, height]
      · have above := branching.number_eq hash known atRoot
        have lower := induction (branching.parent_known hash known atRoot)
          (by omega)
        omega

theorem tree (branching : Branching store root) :
    Tree (Known store) store.parent (store.depth root) root := by
  constructor
  · exact branching.root_known
  · exact Nat.sub_self _
  · intro hash known notRoot
    exact branching.parent_known hash known notRoot
  · intro hash known notRoot
    have above := branching.number_eq hash known notRoot
    have lower := branching.number_root_le
      (branching.parent_known hash known notRoot)
    unfold Store.depth
    omega

theorem isNull_eq_false (branching : Branching store root) {hash : H256}
    (known : Known store hash) : (store.detailsOf hash).isNull = false :=
  decide_eq_false (branching.number_lt hash known).ne

end Branching

/-! ## Routes -/

theorem climb_eq (store : Store) (listed : Bool) (steps : Nat) (hash : H256)
    (list : List H256) :
    store.climb listed steps hash list = (store.parent^[steps] hash,
      list ++ if listed then path store.parent steps hash else []) := by
  induction steps generalizing hash list with
  | zero => cases listed <;> simp [Store.climb, path]
  | succ steps induction =>
      rw [Store.climb, induction, path_succ, Function.iterate_succ_apply]
      cases listed <;> simp

theorem meet_eq (store : Store) (common pre post : Bool) {fuel steps : Nat}
    {start goal : H256} (enough : steps < fuel)
    (same : store.parent^[steps] start = store.parent^[steps] goal)
    (apart : ∀ fewer < steps,
      store.parent^[fewer] start ≠ store.parent^[fewer] goal)
    (nonzero : ∀ fewer < steps, store.parent^[fewer] start ≠ zeroHash 32 ∧
      store.parent^[fewer] goal ≠ zeroHash 32) (ret back : List H256) :
    store.meet common pre post fuel start goal ret back =
      some (store.parent^[steps] start,
        ret ++ (if pre then path store.parent steps start ++
          if common then [store.parent^[steps] start] else [] else []),
        back ++ (if post then path store.parent steps goal ++
          if !pre ∧ common then [store.parent^[steps] start] else []
          else [])) := by
  induction steps generalizing fuel start goal ret back with
  | zero =>
      obtain ⟨fuel, rfl⟩ := Nat.exists_eq_add_of_lt enough
      have equal : start = goal := same
      rw [Store.meet]
      cases common <;> cases pre <;> cases post <;> simp [equal, path]
  | succ steps induction =>
      obtain ⟨fuel, rfl⟩ : ∃ more, fuel = more + 1 :=
        ⟨fuel - 1, by omega⟩
      have here : start ≠ goal := apart 0 (Nat.succ_pos steps)
      have hereNonzero := nonzero 0 (Nat.succ_pos steps)
      have next : ∀ fewer < steps,
          store.parent^[fewer] (store.parent start) ≠
            store.parent^[fewer] (store.parent goal) :=
        fun fewer less => apart (fewer + 1) (Nat.succ_lt_succ less)
      have nextNonzero : ∀ fewer < steps,
          store.parent^[fewer] (store.parent start) ≠ zeroHash 32 ∧
            store.parent^[fewer] (store.parent goal) ≠ zeroHash 32 :=
        fun fewer less => nonzero (fewer + 1) (Nat.succ_lt_succ less)
      have notZero : ¬ (start = zeroHash 32 ∨ goal = zeroHash 32) :=
        not_or.mpr hereNonzero
      rw [Store.meet]
      simp only [here, if_false, notZero]
      rw [induction (by omega) same next nextNonzero, path_succ, path_succ,
        Function.iterate_succ_apply]
      cases common <;> cases pre <;> cases post <;> simp [here]

/-- The index that `treeRoute` returns, where the blocks are `up` and `down`
steps below the one where their lines meet. -/
def routeIndex (common pre post : Bool) (up down : Nat) : Nat :=
  let ret := if pre then up + (if common then 1 else 0) else 0
  let back := if post then down + (if !pre ∧ common then 1 else 0) else 0
  ret - if common ∧ ret ≠ 0 ∧ back ≠ 0 then 1 else 0

/-- The route goes over the block where the lines of two blocks meet. -/
theorem Branching.route {root : H256} (branching : Branching store root)
    {start goal : H256} (startKnown : Known store start)
    (goalKnown : Known store goal) :
    ∃ up down, Meeting store.parent (store.depth root) start goal up down ∧
      ∀ common pre post, store.treeRoute start goal common pre post =
        some ((if pre then path store.parent up start else []) ++
          (if common ∧ (pre ∨ post) then [store.parent^[up] start] else []) ++
          (if post then (path store.parent down goal).reverse else []),
          store.parent^[up] start, routeIndex common pre post up down) := by
  have tree := branching.tree
  obtain ⟨fn, startNumber⟩ :=
    Nat.exists_eq_add_of_le (branching.number_root_le startKnown)
  obtain ⟨tn, goalNumber⟩ :=
    Nat.exists_eq_add_of_le (branching.number_root_le goalKnown)
  have startHeight : store.depth root start = fn := by
    rw [Store.depth, startNumber, Nat.add_sub_cancel_left]
  have goalHeight : store.depth root goal = tn := by
    rw [Store.depth, goalNumber, Nat.add_sub_cancel_left]
  -- Both are brought to the same height.
  have startLow := tree.iterate_spec startKnown
    (show fn - tn ≤ store.depth root start by omega)
  have goalLow := tree.iterate_spec goalKnown
    (show tn - fn ≤ store.depth root goal by omega)
  obtain ⟨steps, few, same, apart⟩ := tree.meets_level startLow.1 goalLow.1
    (by omega)
  have nonzero : ∀ fewer < steps,
      store.parent^[fewer] (store.parent^[fn - tn] start) ≠ zeroHash 32 ∧
      store.parent^[fewer] (store.parent^[tn - fn] goal) ≠ zeroHash 32 := by
    intro fewer less
    exact ⟨branching.nonzero _ (tree.iterate_mem startLow.1 (by omega)),
      branching.nonzero _ (tree.iterate_mem goalLow.1 (by omega))⟩
  have startIterate : store.parent^[fn - tn + steps] start =
      store.parent^[steps] (store.parent^[fn - tn] start) := by
    rw [Nat.add_comm, Function.iterate_add_apply]
  have goalIterate : ∀ more, store.parent^[tn - fn + more] goal =
      store.parent^[more] (store.parent^[tn - fn] goal) := by
    intro more
    rw [Nat.add_comm, Function.iterate_add_apply]
  refine ⟨fn - tn + steps, tn - fn + steps, ?_, ?_⟩
  · rcases Nat.le_total tn fn with startHigher | goalHigher
    · have level : tn - fn = 0 := by omega
      simp only [level, Nat.zero_add, Function.iterate_zero, id_eq]
        at same apart ⊢
      refine tree.meeting_of_level startKnown goalKnown (by omega) (by omega)
        (startIterate.trans same) ?_
      intro fewer less
      rw [Nat.add_comm, Function.iterate_add_apply]
      exact apart fewer less
    · have level : fn - tn = 0 := by omega
      simp only [level, Nat.zero_add, Function.iterate_zero, id_eq]
        at same apart startLow few ⊢
      refine (tree.meeting_of_level goalKnown startKnown (by omega) (by omega)
        ((goalIterate steps).trans same.symm) ?_).symm
      intro fewer less
      rw [goalIterate]
      exact (apart fewer less).symm
  · intro common pre post
    rw [Store.treeRoute, if_neg (not_or.mpr
      ⟨branching.nonzero _ startKnown, branching.nonzero _ goalKnown⟩),
      if_neg (by
        rw [branching.isNull_eq_false startKnown,
          branching.isNull_eq_false goalKnown]
        exact not_or.mpr ⟨nofun, nofun⟩)]
    simp only [startNumber, goalNumber, Nat.add_sub_add_left, climb_eq,
      List.nil_append]
    rw [meet_eq store common pre post (by omega) same apart nonzero,
      startIterate, path_add, path_add]
    cases common <;> cases pre <;> cases post <;>
      simp [routeIndex, Nat.add_assoc]

/-! ## A sample -/

/-- The genesis block and a child of it. -/
def branchSample : Store :=
  { Store.start ⟨hashOfNat 1, zeroHash 32, 0, 0, zeroHash 256, zeroHash 20, []⟩
      0 false with
    details := fun hash =>
      if hash = hashOfNat 1 then some ⟨0, 0, zeroHash 32⟩
      else if hash = hashOfNat 2 then some ⟨1, 0, hashOfNat 1⟩
      else none }

theorem branchSample_known {hash : H256} (known : Known branchSample hash) :
    hash = hashOfNat 1 ∨ hash = hashOfNat 2 := by
  by_contra other
  rw [not_or] at other
  have nothing : branchSample.details hash = none := by
    show ite _ _ _ = _
    rw [if_neg other.1, if_neg other.2]
  rw [Known, nothing] at known
  cases known

instance (store : Store) (hash : H256) : Decidable (Known store hash) :=
  inferInstanceAs (Decidable (_ = true))

theorem branchSample_branching : Branching branchSample (hashOfNat 1) := by
  constructor
  · decide +kernel
  · intro hash known
    rcases branchSample_known known with rfl | rfl
    · decide +kernel
    · decide +kernel
  · intro hash known
    rcases branchSample_known known with rfl | rfl
    · decide +kernel
    · decide +kernel
  · intro hash known notRoot
    rcases branchSample_known known with rfl | rfl
    · exact absurd rfl notRoot
    · decide +kernel
  · intro hash known notRoot
    rcases branchSample_known known with rfl | rfl
    · exact absurd rfl notRoot
    · decide +kernel

/-! ## Ancestors -/

/-- A block descends from itself and from what its parent descends from. -/
inductive Descends (store : Store) (root : H256) : H256 → H256 → Prop where
  | refl (hash : H256) : Descends store root hash hash
  | step {hash above : H256} (notRoot : hash ≠ root)
      (further : Descends store root (store.parent hash) above) :
      Descends store root hash above

/-- The lowest block that two blocks descend from. -/
structure LowestCommon (store : Store) (root first second ancestor : H256) :
    Prop where
  ofFirst : Descends store root first ancestor
  ofSecond : Descends store root second ancestor
  lowest : ∀ other, Descends store root first other →
    Descends store root second other → Descends store root ancestor other

/-- The blocks from one block up to an ancestor, without the ancestor. -/
def Store.upTo (store : Store) (root hash ancestor : H256) : List H256 :=
  (line store.parent (store.depth root) hash).takeWhile fun other =>
    other ≠ ancestor

namespace Branching

variable {root hash above start goal : H256} {up down : Nat}

theorem descends_iff (branching : Branching store root)
    (known : Known store hash) :
    Descends store root hash above ↔
      above ∈ line store.parent (store.depth root) hash := by
  rw [line, mem_path]
  constructor
  · intro descends
    induction descends with
    | refl hash => exact ⟨0, Nat.succ_pos _, rfl⟩
    | step notRoot further induction =>
        obtain ⟨steps, few, same⟩ :=
          induction (branching.parent_known _ known notRoot)
        have height := branching.tree.height_eq known notRoot
        exact ⟨steps + 1, by omega, same⟩
  · intro found
    obtain ⟨steps, few, same⟩ := found
    induction steps generalizing hash with
    | zero =>
        cases same
        exact Descends.refl hash
    | succ steps induction =>
        have notRoot := branching.tree.ne_root_of_pos
          (show 0 < store.depth root hash by omega)
        have height := branching.tree.height_eq known notRoot
        apply Descends.step notRoot
        exact induction (branching.parent_known hash known notRoot)
          (by omega) same

/-- Two lines meet in the lowest common ancestor. -/
theorem lowestCommon (branching : Branching store root)
    (startKnown : Known store start) (goalKnown : Known store goal)
    (meeting : Meeting store.parent (store.depth root) start goal up down) :
    LowestCommon store root start goal (store.parent^[up] start) := by
  have tree := branching.tree
  have known := tree.iterate_mem startKnown meeting.first_le
  have heights := tree.height_iterate startKnown meeting.first_le
  constructor
  · rw [branching.descends_iff startKnown, line, mem_path]
    exact ⟨up, Nat.lt_succ_of_le meeting.first_le, rfl⟩
  · rw [branching.descends_iff goalKnown, line, mem_path]
    exact ⟨down, Nat.lt_succ_of_le meeting.second_le, meeting.common.symm⟩
  · intro other fromStart fromGoal
    rw [branching.descends_iff startKnown] at fromStart
    rw [branching.descends_iff goalKnown] at fromGoal
    rw [branching.descends_iff known, tree.mem_line known]
    obtain ⟨low, same⟩ := (tree.mem_line startKnown).mp fromStart
    have beyond : up ≤ store.depth root start - store.depth root other := by
      by_contra fewer
      apply meeting.first_apart _ (Nat.lt_of_not_le fewer)
      rw [same]
      exact fromGoal
    constructor
    · omega
    · have steps : store.depth root (store.parent^[up] start) -
          store.depth root other + up =
            store.depth root start - store.depth root other := by
        omega
      rw [← Function.iterate_add_apply, steps, same]

/-- The lines do not meet before they do. -/
theorem not_mem_path
    (meeting : Meeting store.parent (store.depth root) start goal up down) :
    store.parent^[up] start ∉ path store.parent up start := by
  intro member
  obtain ⟨step, fewer, same⟩ := mem_path.mp member
  apply meeting.first_apart step fewer
  rw [same, meeting.common, line, mem_path]
  exact ⟨down, Nat.lt_succ_of_le meeting.second_le, rfl⟩

theorem upTo_meeting
    (meeting : Meeting store.parent (store.depth root) start goal up down) :
    store.upTo root start (store.parent^[up] start) =
      path store.parent up start := by
  obtain ⟨more, height⟩ := Nat.exists_eq_add_of_le meeting.first_le
  rw [Store.upTo, line, height, Nat.add_assoc, path_add, path_succ,
    List.takeWhile_append_of_pos]
  · rw [List.takeWhile_cons_of_neg (by simp), List.append_nil]
  · intro other member
    apply decide_eq_true
    intro same
    rw [same] at member
    exact not_mem_path meeting member

/-- The route goes up to the lowest common ancestor and down from it. -/
theorem treeRoute (branching : Branching store root)
    (startKnown : Known store start) (goalKnown : Known store goal)
    {common pre post : Bool} (listed : pre ∨ post) :
    ∃ ancestor index, LowestCommon store root start goal ancestor ∧
      store.treeRoute start goal common pre post =
        some ((if pre then store.upTo root start ancestor else []) ++
          (if common then [ancestor] else []) ++
          (if post then (store.upTo root goal ancestor).reverse else []),
          ancestor, index) := by
  obtain ⟨up, down, meeting, route⟩ := branching.route startKnown goalKnown
  refine ⟨store.parent^[up] start, routeIndex common pre post up down,
    branching.lowestCommon startKnown goalKnown meeting, ?_⟩
  have upward := upTo_meeting meeting
  have downward := upTo_meeting meeting.symm
  rw [← meeting.common] at downward
  rw [route, upward, downward]
  simp [listed]

theorem treeRoute_sample : ∃ ancestor index,
    LowestCommon branchSample (hashOfNat 1) (hashOfNat 2) (hashOfNat 1)
      ancestor ∧
    branchSample.treeRoute (hashOfNat 2) (hashOfNat 1) true true false =
      some (branchSample.upTo (hashOfNat 1) (hashOfNat 2) ancestor ++
        [ancestor] ++ [], ancestor, index) :=
  branchSample_branching.treeRoute (by decide +kernel) (by decide +kernel)
    (Or.inl rfl)

/-- Where the ancestor is found in the route, or would be inserted. -/
def Placed (store : Store) (start goal : H256) (common pre post : Bool)
    (route : List H256) (ancestor : H256) (index : Nat) : Prop :=
  if common then route[index]? = some ancestor
  else index ≤ route.length ∧ ∃ other,
    store.treeRoute start goal true pre post =
      some (route.insertIdx index ancestor, ancestor, other)

theorem insertIdx_append (front back : List H256) (hash : H256) :
    (front ++ back).insertIdx front.length hash = front ++ hash :: back := by
  induction front with
  | nil => rfl
  | cons first front induction => exact congrArg (List.cons first) induction

theorem getElem?_ancestor {front back : List H256} {hash : H256} {index : Nat}
    (infront : hash ∉ front) (behind : hash ∉ back) :
    (front ++ hash :: back)[index]? = some hash ↔ index = front.length := by
  constructor
  · intro found
    rcases Nat.lt_trichotomy index front.length with less | same | more
    · rw [List.getElem?_append_left less] at found
      exact absurd (List.mem_of_getElem? found) infront
    · exact same
    · rw [List.getElem?_append_right more.le] at found
      obtain ⟨place, next⟩ :=
        Nat.exists_eq_add_of_lt more
      rw [next, Nat.add_assoc, Nat.add_sub_cancel_left,
        List.getElem?_cons_succ] at found
      exact absurd (List.mem_of_getElem? found) behind
  · intro same
    rw [same, List.getElem?_append_right (Nat.le_refl _), Nat.sub_self]
    rfl

/-- The index is one too large if the ancestor is the last block of the
route, at the end of the way up. -/
theorem routeIndex_eq {common pre post : Bool} (listed : pre ∨ post) :
    routeIndex common pre post up down = (if pre then up else 0) +
      if common ∧ pre ∧ (!post ∨ down = 0) then 1 else 0 := by
  cases common <;> cases pre <;> cases post <;>
    simp [routeIndex] at listed ⊢
  by_cases none : down = 0
  · simp [none]
  · simp [none]

theorem descends_goal_iff (branching : Branching store root)
    (startKnown : Known store start)
    (meeting : Meeting store.parent (store.depth root) start goal up down) :
    Descends store root start goal ↔ down = 0 := by
  rw [branching.descends_iff startKnown]
  constructor
  · intro onLine
    by_contra positive
    exact meeting.second_apart 0 (Nat.pos_of_ne_zero positive) onLine
  · intro none
    subst none
    rw [line, mem_path]
    exact ⟨up, Nat.lt_succ_of_le meeting.first_le, meeting.common⟩

/-- The index is right unless the ancestor is listed behind the blocks on the
way up with no block behind it. -/
theorem placed_iff (branching : Branching store root)
    (startKnown : Known store start) (goalKnown : Known store goal)
    {common pre post : Bool} (listed : pre ∨ post) :
    ∃ route ancestor index,
      store.treeRoute start goal common pre post =
        some (route, ancestor, index) ∧
      LowestCommon store root start goal ancestor ∧
      (Placed store start goal common pre post route ancestor index ↔
        ¬ (common ∧ pre ∧ (!post ∨ Descends store root start goal))) := by
  obtain ⟨up, down, meeting, route⟩ := branching.route startKnown goalKnown
  refine ⟨_, _, _, route common pre post,
    branching.lowestCommon startKnown goalKnown meeting, ?_⟩
  rw [routeIndex_eq listed, branching.descends_goal_iff startKnown meeting]
  have length : (if pre then path store.parent up start else []).length =
      if pre then up else 0 := by
    cases pre <;> simp
  cases common with
  | false =>
      simp only [Placed, Bool.false_eq_true, false_and, if_false,
        Nat.add_zero, not_false_eq_true, iff_true, List.append_nil]
      rw [← length, insertIdx_append, List.length_append]
      refine ⟨Nat.le_add_right _ _, routeIndex true pre post up down, ?_⟩
      rw [route true pre post]
      simp [listed]
  | true =>
      have infront : store.parent^[up] start ∉
          if pre then path store.parent up start else [] := by
        cases pre with
        | false => exact List.not_mem_nil
        | true => exact not_mem_path meeting
      have behind : store.parent^[up] start ∉
          if post then (path store.parent down goal).reverse else [] := by
        cases post with
        | false => exact List.not_mem_nil
        | true =>
            rw [meeting.common]
            intro member
            exact not_mem_path meeting.symm (List.mem_reverse.mp member)
      simp only [Placed, if_true, listed, true_and, List.append_assoc,
        List.singleton_append]
      rw [getElem?_ancestor infront behind, length]
      split
      next extra => simp [extra]
      next extra => simp [extra]

/-- From the genesis block to its child. -/
theorem placed_iff_sample : ∃ route ancestor index,
    branchSample.treeRoute (hashOfNat 1) (hashOfNat 2) true true true =
      some (route, ancestor, index) ∧
    LowestCommon branchSample (hashOfNat 1) (hashOfNat 1) (hashOfNat 2)
      ancestor ∧
    (Placed branchSample (hashOfNat 1) (hashOfNat 2) true true true route
      ancestor index ↔ ¬ (true ∧ true ∧ (!true ∨
        Descends branchSample (hashOfNat 1) (hashOfNat 1) (hashOfNat 2)))) :=
  branchSample_branching.placed_iff (by decide +kernel) (by decide +kernel)
    (Or.inl rfl)

/-- From the child to the genesis block, the index is one too large. -/
theorem not_placed_sample :
    branchSample.treeRoute (hashOfNat 2) (hashOfNat 1) true true true =
      some ([hashOfNat 2, hashOfNat 1], hashOfNat 1, 2) ∧
    LowestCommon branchSample (hashOfNat 1) (hashOfNat 2) (hashOfNat 1)
      (hashOfNat 1) ∧
    ¬ Placed branchSample (hashOfNat 2) (hashOfNat 1) true true true
      [hashOfNat 2, hashOfNat 1] (hashOfNat 1) 2 := by
  refine ⟨by decide +kernel, ?_, ?_⟩
  · constructor
    · apply Descends.step (by decide +kernel)
      exact Descends.refl _
    · exact Descends.refl _
    · intro other fromStart fromGoal
      exact fromGoal
  · exact nofun

end Branching

end BlockChain

end Aecmio
