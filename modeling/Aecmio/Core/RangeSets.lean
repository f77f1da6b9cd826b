import Aecmio.Core.RangeMask

/-!
# The sets of range masks

What is built with the operations of range masks is the set that the
operations describe, and every observation of a mask is one of its set.
-/

namespace Aecmio

open Intervals

namespace RangeMask

/-- What a mask shows of a set of numbers in a ground range. -/
structure Represents (mask : RangeMask) (ground : UnsignedRange)
    (elements : Finset ℕ) : Prop where
  all : mask.all = ground
  nonempty : ∀ range ∈ mask.ranges, range.1 < range.2
  apart : mask.ranges.Pairwise fun range later => range.2 < later.1
  inside : ∀ range ∈ mask.ranges, ground.1 ≤ range.1 ∧ range.2 ≤ ground.2
  contains : ∀ number, mask.contains number = true ↔ number ∈ elements
  size : mask.size = elements.card
  full : mask.full = true ↔
    ground.1 ≤ ground.2 ∧ elements = Finset.Ico ground.1 ground.2
  firstOut : IsLeast {number | ground.1 ≤ number ∧ number ∉ elements}
    mask.firstOut
  lastIn : elements.Nonempty → IsGreatest (elements : Set ℕ) mask.lastIn
  next : ∀ number, number + 1 < unsignedRange →
    IsLeast {later | later ∈ elements ∧ number < later} (mask.next number) ∨
      mask.next number = ground.2 ∧ ∀ later ∈ elements, later ≤ number
  iterate : ∀ fuel, elements.card ≤ fuel →
    mask.iterate fuel = some (elements.sort (· ≤ ·))

/-! ## Constructions -/

/-- How a mask is built. -/
inductive Construction where
  | empty (first last : ℕ)
  | unionRange (mask : Construction) (range : UnsignedRange)
  | unionElement (mask : Construction) (element : ℕ)
  | unionMask (mask other : Construction)
  | invert (mask : Construction)
  | clear (mask : Construction)
  | extendAll (mask : Construction) (number : ℕ)

namespace Construction

/-- The mask that is built, if no assertion fails. -/
def build : Construction → Option RangeMask
  | .empty first last => some (RangeMask.empty first last)
  | .unionRange mask range => mask.build.bind (·.unionRange range)
  | .unionElement mask element => mask.build.bind (·.unionElement element)
  | .unionMask mask other =>
      mask.build.bind fun mask => other.build.bind mask.unionMask
  | .invert mask => mask.build.map RangeMask.invert
  | .clear mask => mask.build.map RangeMask.clear
  | .extendAll mask number => mask.build.map (·.extendAll number)

/-- The ground range. -/
def ground : Construction → UnsignedRange
  | .empty first last => (first, last)
  | .unionRange mask _ => mask.ground
  | .unionElement mask _ => mask.ground
  | .unionMask mask other =>
      (min other.ground.1 mask.ground.1, max other.ground.2 mask.ground.2)
  | .invert mask => mask.ground
  | .clear mask => mask.ground
  | .extendAll mask number =>
      (min mask.ground.1 number, max mask.ground.2 (number + 1))

/-- The set that is described. -/
def elements : Construction → Finset ℕ
  | .empty _ _ => ∅
  | .unionRange mask range => mask.elements ∪ Finset.Ico range.1 range.2
  | .unionElement mask element => mask.elements ∪ {element}
  | .unionMask mask other => mask.elements ∪ other.elements
  | .invert mask => Finset.Ico mask.ground.1 mask.ground.2 \ mask.elements
  | .clear _ => ∅
  | .extendAll mask _ => mask.elements

/-- Ranges and elements are added inside the ground range only, a ground range
with its begin behind its end is not inverted, and the largest number is kept
away from. -/
def Allowed : Construction → Prop
  | .empty first last => first < unsignedRange ∧ last < unsignedRange
  | .unionRange mask range => mask.Allowed ∧ Inside range mask.ground
  | .unionElement mask element =>
      mask.Allowed ∧ Inside (element, element + 1) mask.ground
  | .unionMask mask other => mask.Allowed ∧ other.Allowed
  | .invert mask => mask.Allowed ∧ mask.ground.1 ≤ mask.ground.2
  | .clear mask => mask.Allowed
  | .extendAll mask number => mask.Allowed ∧ number + 1 < unsignedRange

end Construction

/-- The mask is canonical and has the numbers of the set. -/
structure Holds (mask : RangeMask) (ground : UnsignedRange)
    (elements : Finset ℕ) : Prop where
  canonical : mask.Canonical
  all : mask.all = ground
  has : ∀ number, mask.Has number ↔ number ∈ elements

variable {mask : RangeMask} {ground : UnsignedRange} {elements : Finset ℕ}

theorem Holds.toFinset (holds : mask.Holds ground elements) :
    (numbers mask.ranges).toFinset = elements := by
  ext number
  rw [List.mem_toFinset, mem_numbers]
  exact holds.has number

theorem Holds.card (holds : mask.Holds ground elements) :
    elements.card = (numbers mask.ranges).length := by
  have increasing := holds.canonical.separated.numbers_increasing
  rw [← holds.toFinset]
  exact List.toFinset_card_of_nodup (increasing.imp fun less =>
    Nat.ne_of_lt less)

theorem Holds.sort (holds : mask.Holds ground elements) :
    elements.sort (· ≤ ·) = numbers mask.ranges := by
  have increasing := holds.canonical.separated.numbers_increasing
  have nodup : (numbers mask.ranges).Nodup :=
    increasing.imp fun less => Nat.ne_of_lt less
  rw [← holds.toFinset]
  exact (List.toFinset_sort _ nodup).mpr (increasing.imp fun less => less.le)

/-- A canonical mask represents its set. -/
theorem Holds.shows (holds : mask.Holds ground elements) :
    mask.Represents ground elements := by
  obtain ⟨canonical, rfl, has⟩ := id holds
  refine ⟨rfl, canonical.separated.nonempty, canonical.separated.ordered,
    canonical.within, ?_, ?_, ?_, ?_, ?_, ?_, ?_⟩
  · intro number
    rw [canonical.contains_iff, has]
  · rw [canonical.size_eq, holds.card]
  · rw [canonical.full_iff]
    refine and_congr_right fun _ => ?_
    constructor
    · intro every
      ext number
      rw [Finset.mem_Ico, ← has]
      exact ⟨canonical.has_inside, every number⟩
    · rintro rfl number inside
      rw [has, Finset.mem_Ico]
      exact inside
  · have least := canonical.firstOut_least
    simpa only [has] using least
  · rintro ⟨number, member⟩
    obtain ⟨inMask, upper⟩ :=
      canonical.lastIn_greatest ((has number).mpr member)
    exact ⟨(has _).mp inMask, fun later others =>
      upper ((has later).mpr others)⟩
  · intro number usual
    have spec := canonical.next_spec usual
    simpa only [has] using spec
  · intro fuel enough
    rw [holds.sort]
    rw [holds.card] at enough
    exact canonical.iterate_eq enough

theorem Construction.holds {construction : Construction}
    (allowed : construction.Allowed) :
    ∃ mask, construction.build = some mask ∧
      mask.Holds construction.ground construction.elements := by
  induction construction with
  | empty first last =>
      refine ⟨_, rfl, ⟨Separated.nil, nofun, allowed.1, allowed.2⟩, rfl, ?_⟩
      intro number
      simp [Has, RangeMask.empty, Construction.elements]
  | unionRange construction range induction =>
      obtain ⟨mask, built, canonical, all, has⟩ := induction allowed.1
      have inside := allowed.2
      rw [← all] at inside
      obtain ⟨result, ran, canonical', same, has'⟩ :=
        canonical.unionRange inside
      refine ⟨result, ?_, canonical', same.trans all, fun number => ?_⟩
      · rw [Construction.build, built]
        exact ran
      · rw [has', has, Construction.elements, Finset.mem_union,
          Finset.mem_Ico]
  | unionElement construction element induction =>
      obtain ⟨mask, built, canonical, all, has⟩ := induction allowed.1
      have inside := allowed.2
      rw [← all] at inside
      have high := (inside element (le_refl _) (Nat.lt_succ_self _)).2
      have last := canonical.last
      have stepped : unsignedPlus element 1 = element + 1 :=
        Nat.mod_eq_of_lt (by omega)
      obtain ⟨result, ran, canonical', same, has'⟩ :=
        canonical.unionRange inside
      refine ⟨result, ?_, canonical', same.trans all, fun number => ?_⟩
      · rw [Construction.build, built, Option.bind_some,
          RangeMask.unionElement, stepped]
        exact ran
      · rw [has', has, Construction.elements, Finset.mem_union,
          Finset.mem_singleton]
        refine or_congr_right ?_
        constructor
        · rintro ⟨low, less⟩
          exact le_antisymm (Nat.lt_succ_iff.mp less) low
        · rintro rfl
          exact ⟨le_refl _, Nat.lt_succ_self _⟩
  | unionMask construction other induction induction' =>
      obtain ⟨mask, built, canonical, all, has⟩ := induction allowed.1
      obtain ⟨second, built', canonical', all', has'⟩ := induction' allowed.2
      obtain ⟨result, ran, canonical'', same, has''⟩ :=
        canonical.unionMask canonical'
      refine ⟨result, ?_, canonical'', ?_, fun number => ?_⟩
      · rw [Construction.build, built, built']
        exact ran
      · rw [same, all, all']
        rfl
      · rw [has'', has, has', Construction.elements, Finset.mem_union]
  | invert construction induction =>
      obtain ⟨mask, built, canonical, all, has⟩ := induction allowed.1
      have ordered := allowed.2
      rw [← all] at ordered
      obtain ⟨canonical', has'⟩ := canonical.invert ordered
      refine ⟨mask.invert, ?_, canonical', all, fun number => ?_⟩
      · rw [Construction.build, built]
        rfl
      · rw [has', has, all, Construction.elements, Finset.mem_sdiff,
          Finset.mem_Ico]
  | clear construction induction =>
      obtain ⟨mask, built, canonical, all, -⟩ := induction allowed
      refine ⟨mask.clear, ?_, ⟨Separated.nil, nofun, canonical.first,
        canonical.last⟩, all, fun number => ?_⟩
      · rw [Construction.build, built]
        rfl
      · simp [Has, RangeMask.clear, Construction.elements]
  | extendAll construction number induction =>
      obtain ⟨mask, built, canonical, all, has⟩ := induction allowed.1
      have usual := allowed.2
      have stepped : unsignedPlus number 1 = number + 1 :=
        Nat.mod_eq_of_lt usual
      refine ⟨mask.extendAll number, ?_, ⟨canonical.separated, ?_, ?_, ?_⟩,
        ?_, has⟩
      · rw [Construction.build, built]
        rfl
      · intro range member
        obtain ⟨low, high⟩ := canonical.within range member
        exact ⟨(min_le_left _ _).trans low, high.trans (le_max_left _ _)⟩
      · exact (min_le_left _ _).trans_lt canonical.first
      · simp only [RangeMask.extendAll, stepped]
        exact max_lt canonical.last usual
      · simp only [RangeMask.extendAll, stepped, all]
        rfl

end RangeMask

/-- A mask that is built from empty ones represents the set that its
construction describes. -/
theorem RangeMask.represents {construction : RangeMask.Construction}
    (allowed : construction.Allowed) :
    ∃ mask, construction.build = some mask ∧
      mask.Represents construction.ground construction.elements := by
  obtain ⟨mask, built, holds⟩ := RangeMask.Construction.holds allowed
  exact ⟨mask, built, holds.shows⟩

/-- The numbers up to ten but for the middle ones. -/
theorem RangeMask.represents_sample :
    ∃ mask, (RangeMask.Construction.invert
        (.unionRange (.empty 0 10) (3, 7))).build = some mask ∧
      mask.Represents (0, 10) (Finset.Ico 0 10 \ (∅ ∪ Finset.Ico 3 7)) := by
  have allowed : (RangeMask.Construction.invert
      (.unionRange (.empty 0 10) (3, 7))).Allowed := by
    refine ⟨⟨⟨by decide, by decide⟩, ?_⟩, by decide⟩
    intro number low high
    simp only [RangeMask.Construction.ground] at low high ⊢
    omega
  exact RangeMask.represents allowed

/-- The complement relative to a ground range with its begin behind its end
has a range of this kind. -/
theorem RangeMask.invert_reversed_sample :
    (RangeMask.Construction.invert (.empty 5 3)).build =
        some { all := (5, 3), ranges := [(5, 3)] } ∧
      ¬ ∀ range ∈ [((5, 3) : UnsignedRange)], range.1 < range.2 := by
  decide

namespace RangeMask

variable {mask other : RangeMask} {range : UnsignedRange}
  {ranges front : List UnsignedRange} {items number : ℕ}

/-! ## Differences -/

theorem Canonical.minus (canonical : mask.Canonical)
    (canonical' : other.Canonical) (ordered : mask.all.1 ≤ mask.all.2) :
    ∃ result, mask.minus other = some result ∧ result.Canonical ∧
      ∀ number, result.Has number ↔
        (min other.all.1 mask.all.1 ≤ number ∧
          number < max other.all.2 mask.all.2) ∧
        ¬ ((mask.all.1 ≤ number ∧ number < mask.all.2) ∧ ¬ mask.Has number ∨
          other.Has number) := by
  obtain ⟨inverted, has⟩ := canonical.invert ordered
  obtain ⟨union, ran, canonical'', all, has'⟩ := inverted.unionMask canonical'
  have wider : union.all.1 ≤ union.all.2 := by
    rw [all]
    exact (min_le_right _ _).trans (ordered.trans (le_max_right _ _))
  obtain ⟨difference, has''⟩ := canonical''.invert wider
  refine ⟨union.invert, ?_, difference, fun number => ?_⟩
  · rw [RangeMask.minus, ran]
    rfl
  · rw [has'', has', has, all]
    rfl

/-- The difference is that of the sets, if and only if the second mask has all
numbers that its ground range adds to the first one's. -/
theorem Canonical.minus_iff (canonical : mask.Canonical)
    (canonical' : other.Canonical) (ordered : mask.all.1 ≤ mask.all.2) :
    (∃ result, mask.minus other = some result ∧
      ∀ number, result.contains number = true ↔
        mask.contains number = true ∧ other.contains number = false) ↔
    ∀ number, min other.all.1 mask.all.1 ≤ number →
      number < max other.all.2 mask.all.2 →
      (mask.all.1 ≤ number ∧ number < mask.all.2) ∨
        other.contains number = true := by
  obtain ⟨result, ran, canonical'', has⟩ := canonical.minus canonical' ordered
  simp only [ran, Option.some.injEq, exists_eq_left', ← Bool.not_eq_true,
    canonical.contains_iff, canonical'.contains_iff, canonical''.contains_iff,
    has]
  constructor
  · intro same number low high
    by_contra out
    rw [not_or] at out
    have inMask := ((same number).mp ⟨⟨low, high⟩, by tauto⟩).1
    exact out.1 (canonical.has_inside inMask)
  · intro covered number
    constructor
    · rintro ⟨⟨low, high⟩, out⟩
      have inside := covered number low high
      tauto
    · rintro ⟨inMask, notOther⟩
      obtain ⟨low, high⟩ := canonical.has_inside inMask
      exact ⟨⟨(min_le_right _ _).trans low,
        high.trans_le (le_max_right _ _)⟩, by tauto⟩

/-! ## The lowest numbers -/

/-- The ranges of the first numbers. -/
def taken : ℕ → List UnsignedRange → List UnsignedRange
  | _, [] => []
  | items, range :: ranges =>
      if items = 0 then []
      else (range.1, min (range.1 + items) range.2) ::
        taken (items - (range.2 - range.1)) ranges

/-- No sum of `lowest` is beyond the unsigned numbers. -/
def Fits : ℕ → List UnsignedRange → Prop
  | _, [] => True
  | items, range :: ranges => items = 0 ∨ range.1 + items < unsignedRange ∧
      Fits (items - (range.2 - range.1)) ranges

@[simp]
theorem taken_zero (ranges : List UnsignedRange) : taken 0 ranges = [] := by
  cases ranges <;> rfl

theorem fits_zero (ranges : List UnsignedRange) : Fits 0 ranges := by
  cases ranges with
  | nil => trivial
  | cons range ranges => exact .inl rfl

theorem numbers_taken (separated : Separated ranges) (items : ℕ) :
    numbers (taken items ranges) = (numbers ranges).take items := by
  induction ranges generalizing items with
  | nil => simp [taken, numbers]
  | cons range ranges induction =>
      have nonempty := separated.nonempty range List.mem_cons_self
      rw [taken]
      by_cases none : items = 0
      · rw [if_pos none, none, List.take_zero]
        rfl
      · rw [if_neg none, numbers_cons, numbers_cons,
          induction separated.tail, List.take_append, List.length_range']
        by_cases few : range.1 + items ≤ range.2
        · have count : min (range.1 + items) range.2 - range.1 = items := by
            omega
          rw [count, List.take_range'_of_length_ge (by omega)]
        · have count : min (range.1 + items) range.2 - range.1 =
              range.2 - range.1 := by omega
          rw [count, List.take_range'_of_length_le (by omega)]

theorem separated_taken (separated : Separated ranges) (items : ℕ) :
    Separated (taken items ranges) := by
  induction ranges generalizing items with
  | nil => exact Separated.nil
  | cons range ranges induction =>
      have nonempty := separated.nonempty range List.mem_cons_self
      rw [taken]
      by_cases none : items = 0
      · rw [if_pos none]
        exact Separated.nil
      · rw [if_neg none]
        refine Separated.cons_iff.mpr ⟨lt_min (by omega) nonempty, ?_,
          induction separated.tail _⟩
        intro later member
        have covered : Covers (taken (items - (range.2 - range.1)) ranges)
            later.1 := ⟨later, member, le_refl _,
          (induction separated.tail _).nonempty later member⟩
        rw [← mem_numbers, numbers_taken separated.tail] at covered
        have above := separated.beyond
          (mem_numbers.mp (List.mem_of_mem_take covered))
        exact (min_le_right _ _).trans_lt above

/-- A round of `lowest` whose sum does not wrap. -/
theorem lowestLoop_fits (nonempty : range.1 < range.2)
    (bounded : range.2 < unsignedRange) (some : items ≠ 0)
    (fits : range.1 + items < unsignedRange)
    (before : ∀ other ∈ front, other.1 < range.1) :
    lowestLoop items (range :: ranges) front =
      lowestLoop (items - (range.2 - range.1)) ranges
        (front ++ [(range.1, min (range.1 + items) range.2)]) := by
  have sum : unsignedPlus range.1 items = range.1 + items :=
    Nat.mod_eq_of_lt fits
  have count : unsignedMinus (min (range.1 + items) range.2) range.1 =
      min (range.1 + items) range.2 - range.1 :=
    unsignedMinus_eq (by omega) (by omega)
  have left : unsignedMinus items (min (range.1 + items) range.2 - range.1) =
      items - (range.2 - range.1) := by
    rw [unsignedMinus_eq (by omega) (by omega)]
    omega
  rw [lowestLoop, if_neg some]
  simp only [sum, count, left, assign_last before]

theorem lowestLoop_eq (separated : Separated ranges)
    (bounded : ∀ range ∈ ranges, range.2 < unsignedRange)
    (before : ∀ other ∈ front, ∀ range ∈ ranges, other.1 < range.1)
    (fits : Fits items ranges) :
    lowestLoop items ranges front = front ++ taken items ranges := by
  induction ranges generalizing items front with
  | nil => simp [lowestLoop, taken]
  | cons range ranges induction =>
      obtain ⟨nonempty, later, separated⟩ := Separated.cons_iff.mp separated
      by_cases none : items = 0
      · simp [lowestLoop, taken, none]
      · obtain ⟨small, fits⟩ := fits.resolve_left none
        rw [lowestLoop_fits nonempty (bounded range List.mem_cons_self) none
          small fun other member => before other member range
            List.mem_cons_self, induction separated _ _ fits, taken,
          if_neg none, List.append_assoc]
        · rfl
        · exact fun other member =>
            bounded other (List.mem_cons_of_mem _ member)
        · intro other member last inRanges
          rcases List.mem_append.mp member with inFront | made
          · exact before other inFront last (List.mem_cons_of_mem _ inRanges)
          · rw [List.mem_singleton.mp made]
            exact nonempty.trans (later last inRanges)

/-- Where a sum wraps, the range it is for comes out reversed, and the loop
ends. -/
theorem lowestLoop_wraps (separated : Separated ranges)
    (bounded : ∀ range ∈ ranges, range.2 < unsignedRange)
    (few : items < unsignedRange)
    (before : ∀ other ∈ front, ∀ range ∈ ranges, other.1 < range.1)
    (wraps : ¬ Fits items ranges) :
    ∃ front' first end_, lowestLoop items ranges front =
        front' ++ [(first, end_)] ∧ (∀ other ∈ front', other.1 < first) ∧
      end_ ≤ first ∧ first ∈ (numbers ranges).take items := by
  induction ranges generalizing items front with
  | nil => exact absurd trivial wraps
  | cons range ranges induction =>
      obtain ⟨nonempty, later, separated⟩ := Separated.cons_iff.mp separated
      have high := bounded range List.mem_cons_self
      have starts : ∀ other ∈ front, other.1 < range.1 :=
        fun other member => before other member range List.mem_cons_self
      rw [Fits, not_or, not_and] at wraps
      obtain ⟨some, wraps⟩ := wraps
      by_cases small : range.1 + items < unsignedRange
      · have short : range.2 - range.1 < items := by
          by_contra long
          have none : items - (range.2 - range.1) = 0 := by omega
          rw [none] at wraps
          exact wraps small (fits_zero ranges)
        have earlier : ∀ other ∈ front ++ [(range.1,
            min (range.1 + items) range.2)], ∀ last ∈ ranges,
            other.1 < last.1 := by
          intro other member last inRanges
          rcases List.mem_append.mp member with inFront | made
          · exact before other inFront last
              (List.mem_cons_of_mem _ inRanges)
          · rw [List.mem_singleton.mp made]
            exact nonempty.trans (later last inRanges)
        obtain ⟨front', first, end_, ran, starts', reversed, member⟩ :=
          induction separated
            (fun other member => bounded other (List.mem_cons_of_mem _ member))
            (show items - (range.2 - range.1) < unsignedRange by omega) earlier
            (wraps small)
        refine ⟨front', first, end_, ?_, starts', reversed, ?_⟩
        · rw [lowestLoop_fits nonempty high some small starts, ran]
        · rw [numbers_cons, List.take_append, List.length_range']
          exact List.mem_append_right _ member
      · have sum : unsignedPlus range.1 items =
            range.1 + items - unsignedRange := by
          have wrapped : range.1 + items =
              range.1 + items - unsignedRange + unsignedRange := by omega
          rw [unsignedPlus, wrapped, Nat.add_mod_right,
            Nat.mod_eq_of_lt (by omega)]
          omega
        have smaller : min (unsignedPlus range.1 items) range.2 =
            range.1 + items - unsignedRange := by omega
        have difference : unsignedMinus (range.1 + items - unsignedRange)
            range.1 = items := by
          rw [unsignedMinus, Nat.mod_eq_of_lt (by omega)]
          omega
        have none : unsignedMinus items items = 0 := by
          rw [unsignedMinus_eq (le_refl _) few, Nat.sub_self]
        refine ⟨front, range.1, range.1 + items - unsignedRange, ?_, starts,
          by omega, ?_⟩
        · rw [lowestLoop, if_neg some]
          simp only [smaller, difference, none, assign_last starts]
          cases ranges with
          | nil => rfl
          | cons next ranges => rw [lowestLoop, if_pos rfl]
        · obtain ⟨count, rfl⟩ := Nat.exists_eq_succ_of_ne_zero some
          obtain ⟨more, length⟩ : ∃ more, range.2 - range.1 = more + 1 :=
            ⟨range.2 - range.1 - 1, by omega⟩
          rw [numbers_cons, length, List.range'_succ]
          simp

/-- The count of the mask's numbers less than another. -/
def below (ranges : List UnsignedRange) (number : ℕ) : ℕ :=
  ((numbers ranges).filter (· < number)).length

theorem below_head (separated : Separated (range :: ranges)) :
    below (range :: ranges) range.1 = 0 := by
  rw [below, List.length_eq_zero_iff, List.filter_eq_nil_iff]
  intro number member
  have nonempty := separated.nonempty range List.mem_cons_self
  rw [decide_eq_true_eq, not_lt]
  rcases covers_cons.mp (mem_numbers.mp member) with here | later
  · exact here.1
  · exact (nonempty.trans (separated.beyond later)).le

theorem below_tail {later : UnsignedRange} (above : range.2 < later.1) :
    below (range :: ranges) later.1 =
      range.2 - range.1 + below ranges later.1 := by
  have all : (List.range' range.1 (range.2 - range.1)).filter
      (· < later.1) = List.range' range.1 (range.2 - range.1) := by
    apply List.filter_eq_self.mpr
    intro number member
    obtain ⟨low, high⟩ := List.mem_range'_1.mp member
    rw [decide_eq_true_eq]
    omega
  rw [below, numbers_cons, List.filter_append, all, List.length_append,
    List.length_range']
  rfl

theorem fits_iff (separated : Separated ranges) : Fits items ranges ↔
    ∀ range ∈ ranges, below ranges range.1 < items →
      range.1 + (items - below ranges range.1) < unsignedRange := by
  induction ranges generalizing items with
  | nil => exact iff_of_true trivial nofun
  | cons range ranges induction =>
      have first := below_head separated
      obtain ⟨nonempty, later, separated⟩ := Separated.cons_iff.mp separated
      rw [Fits, induction separated, List.forall_mem_cons, first,
        Nat.sub_zero]
      by_cases none : items = 0
      · subst none
        exact iff_of_true (.inl rfl) ⟨nofun, fun _ _ => nofun⟩
      · rw [or_iff_right none]
        constructor
        · rintro ⟨small, rest⟩
          refine ⟨fun _ => small, fun next member few => ?_⟩
          have count := @below_tail _ ranges _ (later next member)
          have fits := rest next member (by omega)
          omega
        · rintro ⟨small, rest⟩
          refine ⟨small (Nat.pos_of_ne_zero none), fun next member few => ?_⟩
          have count := @below_tail _ ranges _ (later next member)
          have fits := rest next member (by omega)
          omega

theorem Canonical.lowest_iff (canonical : mask.Canonical)
    (few : items < unsignedRange) :
    (∀ number, (mask.lowest items).contains number = true ↔
      number ∈ (numbers mask.ranges).take items) ↔
    ∀ range ∈ mask.ranges, below mask.ranges range.1 < items →
      range.1 + (items - below mask.ranges range.1) < unsignedRange := by
  have bounded : ∀ range ∈ mask.ranges, range.2 < unsignedRange :=
    fun range member => (canonical.bounded member).2
  rw [← fits_iff canonical.separated]
  constructor
  · intro same
    by_contra wraps
    obtain ⟨front, first, end_, ran, starts, reversed, member⟩ :=
      @lowestLoop_wraps _ [] _ canonical.separated bounded few nofun
        wraps
    have found := (same first).mpr member
    have whole : upTo (front ++ [(first, end_)]) first =
        front ++ [(first, end_)] := by
      apply List.takeWhile_eq_self_iff.mpr
      intro range inRanges
      rw [decide_eq_true_eq]
      rcases List.mem_append.mp inRanges with inFront | last
      · exact (starts range inFront).le
      · rw [List.mem_singleton.mp last]
    rw [RangeMask.lowest, RangeMask.contains] at found
    simp only [ran, whole, List.getLast?_concat] at found
    exact absurd (of_decide_eq_true found) reversed.not_gt
  · intro fits number
    have ran := @lowestLoop_eq _ [] _ canonical.separated bounded nofun
      fits
    rw [List.nil_append] at ran
    have separated := separated_taken canonical.separated items
    have contained := @covers_iff_upTo _ _ _ number separated
    rw [← numbers_taken canonical.separated, mem_numbers, contained,
      RangeMask.lowest, RangeMask.contains, ran]
    cases (upTo (taken items mask.ranges) number).getLast? with
    | none => simp
    | some it => simp

end RangeMask

/-- The difference of two masks is that of their sets, if and only if the
second has all numbers that its ground range adds to the first one's; and the
lowest numbers of a mask are right, if and only if no sum of the begin of a
range and of the count that is left wraps. -/
theorem RangeMask.difference_lowest_iff {mask other : RangeMask}
    (canonical : mask.Canonical) (canonical' : other.Canonical) :
    (mask.all.1 ≤ mask.all.2 →
      ((∃ result, mask.minus other = some result ∧
        ∀ number, result.contains number = true ↔
          mask.contains number = true ∧ other.contains number = false) ↔
      ∀ number, min other.all.1 mask.all.1 ≤ number →
        number < max other.all.2 mask.all.2 →
        (mask.all.1 ≤ number ∧ number < mask.all.2) ∨
          other.contains number = true)) ∧
    ∀ items : ℕ, items < unsignedRange →
      ((∀ number, (mask.lowest items).contains number = true ↔
        number ∈ (Intervals.numbers mask.ranges).take items) ↔
      ∀ range ∈ mask.ranges,
        RangeMask.below mask.ranges range.1 < items →
        range.1 + (items - RangeMask.below mask.ranges range.1) <
          unsignedRange) :=
  ⟨fun ordered => canonical.minus_iff canonical' ordered,
    fun _ few => canonical.lowest_iff few⟩

/-- Masks of one ground range, and two numbers of the first. -/
theorem RangeMask.difference_lowest_iff_sample :
    (∃ result, RangeMask.minus ⟨(0, 10), [(2, 5)]⟩ ⟨(0, 10), [(4, 6)]⟩ =
        some result ∧
      ∀ number, result.contains number = true ↔
        RangeMask.contains ⟨(0, 10), [(2, 5)]⟩ number = true ∧
          RangeMask.contains ⟨(0, 10), [(4, 6)]⟩ number = false) ∧
    ∀ number, (RangeMask.lowest ⟨(0, 10), [(2, 5)]⟩ 2).contains number = true ↔
      number ∈ [2, 3] := by
  have small : 0 < unsignedRange ∧ 10 < unsignedRange := by decide
  have canonical : ∀ first last : ℕ, first < last → last ≤ 10 →
      RangeMask.Canonical ⟨(0, 10), [(first, last)]⟩ := by
    intro first last less high
    refine ⟨Intervals.Separated.cons_iff.mpr
      ⟨less, nofun, Intervals.Separated.nil⟩, ?_, small.1, small.2⟩
    intro range member
    rw [List.mem_singleton.mp member]
    exact ⟨Nat.zero_le _, high⟩
  constructor
  · refine ((RangeMask.difference_lowest_iff
      (canonical 2 5 (by decide) (by decide))
      (canonical 4 6 (by decide) (by decide))).1 (by decide)).mpr ?_
    intro number low high
    exact .inl ⟨low, high⟩
  · refine ((RangeMask.difference_lowest_iff
      (canonical 2 5 (by decide) (by decide))
      (canonical 4 6 (by decide) (by decide))).2 2 (by decide)).mpr ?_
    decide

/-- What the ground range of the second mask adds is in the difference, and of
five numbers close to the largest one none is among the lowest ten. -/
theorem RangeMask.difference_lowest_sample :
    ((RangeMask.Construction.unionRange (.empty 0 5) (1, 2)).build =
        some ⟨(0, 5), [(1, 2)]⟩ ∧
      (RangeMask.Construction.unionRange (.empty 0 10) (2, 3)).build =
        some ⟨(0, 10), [(2, 3)]⟩ ∧
      RangeMask.contains ⟨(0, 5), [(1, 2)]⟩ 7 = false ∧
      ∃ result, RangeMask.minus ⟨(0, 5), [(1, 2)]⟩ ⟨(0, 10), [(2, 3)]⟩ =
          some result ∧ result.contains 7 = true) ∧
    (RangeMask.Construction.unionRange (.empty 0 4294967295)
        (4294967290, 4294967295)).build =
        some ⟨(0, 4294967295), [(4294967290, 4294967295)]⟩ ∧
      RangeMask.contains ⟨(0, 4294967295), [(4294967290, 4294967295)]⟩
        4294967290 = true ∧
      (RangeMask.lowest ⟨(0, 4294967295), [(4294967290, 4294967295)]⟩
        10).contains 4294967290 = false := by
  refine ⟨⟨by decide, by decide, by decide, ?_⟩, by decide, by decide,
    by decide⟩
  exact ⟨_, rfl, by decide⟩

end Aecmio
