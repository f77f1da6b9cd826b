import Aecmio.Logic.Intervals
import Mathlib.Data.Finset.Sort

/-!
# Range masks

A range mask is a set of unsigned numbers inside a ground range, kept as a map
from the begin of each of its ranges to its end.
-/

namespace Aecmio

open Intervals

/-- The numbers of `unsigned`. -/
def unsignedRange : ℕ := 2 ^ 32

/-- `_a - _b` of unsigned numbers. -/
def unsignedMinus (a b : ℕ) : ℕ :=
  (a + (unsignedRange - b)) % unsignedRange

/-- `_a + _b` of unsigned numbers. -/
def unsignedPlus (a b : ℕ) : ℕ := (a + b) % unsignedRange

abbrev UnsignedRange : Type := ℕ × ℕ

/-- `RangeMask`: the ground range and the map from begin to end. -/
structure RangeMask where
  all : UnsignedRange
  ranges : List UnsignedRange
deriving DecidableEq

namespace RangeMask

/-- `RangeMask(_begin, _end)`. -/
def empty (first last : ℕ) : RangeMask := { all := (first, last), ranges := [] }

/-! ## Operations -/

/-- The loop of `lowest`. -/
def lowestLoop : ℕ → List UnsignedRange → List UnsignedRange →
    List UnsignedRange
  | _, [], ret => ret
  | items, range :: ranges, ret =>
      if items = 0 then ret
      else
        let end_ := min (unsignedPlus range.1 items) range.2
        lowestLoop (unsignedMinus items (unsignedMinus end_ range.1)) ranges
          (assign range.1 end_ ret)

/-- `lowest`. -/
def lowest (mask : RangeMask) (items : ℕ) : RangeMask :=
  { all := mask.all, ranges := lowestLoop items mask.ranges [] }

/-- The loop of `inverted`: the map, and the end of the last range. -/
def invertedLoop : List UnsignedRange → List UnsignedRange × ℕ →
    List UnsignedRange × ℕ
  | [], ret => ret
  | range :: ranges, (ret, last) =>
      invertedLoop ranges
        (if range.1 ≠ last then assign last range.1 ret else ret, range.2)

/-- `inverted`. -/
def inverted (mask : RangeMask) : RangeMask :=
  let (ret, last) := invertedLoop mask.ranges ([], mask.all.1)
  { all := mask.all
    ranges := if last ≠ mask.all.2 then assign last mask.all.2 ret else ret }

/-- How a round of the loop of `unionWith` ends. -/
inductive Round where
  | stop (ranges : List UnsignedRange)
  | go (ranges : List UnsignedRange) (cursor : ℕ)

/-- A round of the loop of `unionWith(Range)`, at a number of the range. -/
def unionRound (range : UnsignedRange) (ranges : List UnsignedRange)
    (cursor : ℕ) : Round :=
  let rangeAfter := (behind ranges cursor).head?
  let create := match rangeAfter with
    | none => .stop (assign cursor range.2 ranges)
    | some after =>
        if after.1 > range.2 then .stop (assign cursor range.2 ranges)
        else if after.1 = cursor then .go ranges after.2
        else .go (erase after.1 (assign cursor after.2 ranges)) after.2
  match (upTo ranges cursor).getLast? with
  | none => create
  | some it =>
      if it.2 < cursor then create
      else if it.2 = cursor then
        match rangeAfter with
        | none => .stop (assign it.1 range.2 ranges)
        | some after =>
            if after.1 > range.2 then .stop (assign it.1 range.2 ranges)
            else .go (erase after.1 (assign it.1 after.2 ranges)) after.2
      else .go ranges it.2

/-- The loop of `unionWith(Range)`, with its assertions. -/
def unionLoop (all range : UnsignedRange) : ℕ → List UnsignedRange → ℕ →
    Option (List UnsignedRange)
  | fuel, ranges, cursor =>
      if cursor < range.2 then
        if all.1 ≤ cursor ∧ cursor < all.2 then
          match fuel with
          | 0 => none
          | fuel + 1 =>
              match unionRound range ranges cursor with
              | .stop ranges => some ranges
              | .go ranges cursor => unionLoop all range fuel ranges cursor
        else none
      else some ranges

/-- `unionWith(Range)`.  Every round moves the cursor on. -/
def unionRange (mask : RangeMask) (range : UnsignedRange) :
    Option RangeMask := do
  let ranges ← unionLoop mask.all range (range.2 - range.1) mask.ranges range.1
  some { mask with ranges }

/-- `unionWith(unsigned)`. -/
def unionElement (mask : RangeMask) (element : ℕ) : Option RangeMask :=
  mask.unionRange (element, unsignedPlus element 1)

/-- `unionWith(RangeMask)`. -/
def unionMask (mask other : RangeMask) : Option RangeMask :=
  other.ranges.foldlM unionRange
    { mask with
      all := (min other.all.1 mask.all.1, max other.all.2 mask.all.2) }

/-- `invert`. -/
def invert (mask : RangeMask) : RangeMask := mask.inverted

/-- `operator-` of range masks. -/
def minus (mask other : RangeMask) : Option RangeMask := do
  let ret ← mask.invert.unionMask other
  some ret.invert

/-- `clear`. -/
def clear (mask : RangeMask) : RangeMask := { mask with ranges := [] }

/-- `extendAll`. -/
def extendAll (mask : RangeMask) (number : ℕ) : RangeMask :=
  { mask with
    all := (min mask.all.1 number, max mask.all.2 (unsignedPlus number 1)) }

/-! ## Observations -/

/-- `contains`. -/
def contains (mask : RangeMask) (number : ℕ) : Bool :=
  match (upTo mask.ranges number).getLast? with
  | none => false
  | some it => it.2 > number

/-- `full`. -/
def full (mask : RangeMask) : Bool :=
  mask.all.1 = mask.all.2 ∨ mask.ranges = [mask.all]

/-- The begin of the first range behind a number, or the end of the ground
range. -/
def beginAfter (mask : RangeMask) (number : ℕ) : ℕ :=
  match (behind mask.ranges number).head? with
  | none => mask.all.2
  | some uit => uit.1

/-- `next`. -/
def next (mask : RangeMask) (number : ℕ) : ℕ :=
  let number := unsignedPlus number 1
  match (upTo mask.ranges number).getLast? with
  | none => mask.beginAfter number
  | some it =>
      if it.1 ≤ number ∧ number < it.2 then number
      else mask.beginAfter number

/-- `size`. -/
def size (mask : RangeMask) : ℕ :=
  mask.ranges.foldl
    (fun count range => (count + unsignedMinus range.2 range.1) % 2 ^ 64) 0

/-- `firstOut`. -/
def firstOut (mask : RangeMask) : ℕ :=
  match mask.ranges.lookup mask.all.1 with
  | none => mask.all.1
  | some end_ => end_

/-- `lastIn`. -/
def lastIn (mask : RangeMask) : ℕ :=
  match mask.ranges.getLast? with
  | none => mask.all.1
  | some range => unsignedMinus range.2 1

/-- The value of the iterator at `begin()`. -/
def begin_ (mask : RangeMask) : ℕ :=
  match mask.ranges with
  | [] => mask.all.2
  | range :: _ => range.1

/-- The values of the iterator until it is the one at `end()`. -/
def iterateLoop (mask : RangeMask) : ℕ → ℕ → Option (List ℕ)
  | fuel, value =>
      if value = mask.all.2 then some []
      else
        match fuel with
        | 0 => none
        | fuel + 1 => do
            let values ← iterateLoop mask fuel (mask.next value)
            some (value :: values)

/-- The numbers that a loop over the mask visits. -/
def iterate (mask : RangeMask) (fuel : ℕ) : Option (List ℕ) :=
  mask.iterateLoop fuel mask.begin_

/-! ## Unions -/

variable {mask other : RangeMask} {range all it after : UnsignedRange}
  {ranges front back : List UnsignedRange} {cursor number start end_ : ℕ}

/-- What the end of a round says of the map. -/
def Round.Adds (range : UnsignedRange) (ranges : List UnsignedRange)
    (cursor : ℕ) : Round → Prop
  | .stop ranges' => Separated ranges' ∧ ∀ number,
      Covers ranges' number ↔
        Covers ranges number ∨ cursor ≤ number ∧ number < range.2
  | .go ranges' cursor' => cursor < cursor' ∧ Separated ranges' ∧ ∀ number,
      (Covers ranges' number ∨ cursor' ≤ number ∧ number < range.2) ↔
        (Covers ranges number ∨ cursor ≤ number ∧ number < range.2)

theorem separated_put (separated : Separated (front ++ back))
    (before : ∀ other ∈ front, other.2 < start) (nonempty : start < end_)
    (later : ∀ other ∈ back, end_ < other.1) :
    Separated (front ++ (start, end_) :: back) := by
  obtain ⟨front', back', across⟩ := Separated.append_iff.mp separated
  refine Separated.append_iff.mpr ⟨front',
    Separated.cons_iff.mpr ⟨nonempty, later, back'⟩, ?_⟩
  intro other inFront next member
  rcases List.mem_cons.mp member with rfl | inBack
  · exact before other inFront
  · exact across other inFront next inBack

theorem separated_drop (separated : Separated (front ++ it :: back)) :
    Separated (front ++ back) ∧ (∀ other ∈ front, other.2 < it.1) ∧
      it.1 < it.2 ∧ ∀ other ∈ back, it.2 < other.1 := by
  obtain ⟨front', back', across⟩ := Separated.append_iff.mp separated
  obtain ⟨nonempty, later, rest⟩ := Separated.cons_iff.mp back'
  refine ⟨Separated.append_iff.mpr ⟨front', rest, ?_⟩,
    fun other member => across other member it List.mem_cons_self, nonempty,
    later⟩
  intro other inFront next inBack
  exact across other inFront next (List.mem_cons_of_mem _ inBack)

/-- Where no range ends up to the cursor, one from the cursor on is made. -/
theorem create_adds (separated : Separated (front ++ back))
    (inside : cursor < range.2) (before : ∀ other ∈ front, other.2 < cursor)
    (later : ∀ other ∈ back, cursor < other.1) :
    Round.Adds range (front ++ back) cursor
      (match back.head? with
        | none => .stop (assign cursor range.2 (front ++ back))
        | some after =>
            if after.1 > range.2 then
              .stop (assign cursor range.2 (front ++ back))
            else if after.1 = cursor then .go (front ++ back) after.2
            else .go (erase after.1 (assign cursor after.2 (front ++ back)))
              after.2) := by
  obtain ⟨front', -, -⟩ := Separated.append_iff.mp separated
  have starts : ∀ other ∈ front, other.1 < cursor := fun other member =>
    (front'.nonempty other member).trans (before other member)
  have made : ∀ end_, assign cursor end_ (front ++ back) =
      front ++ (cursor, end_) :: back := fun end_ => assign_new starts later
  cases back with
  | nil =>
      rw [made]
      refine ⟨separated_put separated before inside nofun, fun number => ?_⟩
      simp
  | cons after back =>
      rw [List.head?_cons]
      by_cases far : after.1 > range.2
      · simp only [if_pos far, made]
        obtain ⟨-, -, -, beyond⟩ := separated_drop separated
        refine ⟨separated_put separated before inside ?_, fun number => ?_⟩
        · intro other member
          rcases List.mem_cons.mp member with rfl | inBack
          · exact far
          · have nonempty := separated.nonempty after (by simp)
            exact far.trans (nonempty.trans (beyond other inBack))
        · simp only [covers_append, covers_cons]
          tauto
      · have above := later after List.mem_cons_self
        obtain ⟨rest, ends, nonempty, beyond⟩ := separated_drop separated
        simp only [if_neg far, if_neg above.ne', made]
        have erased : erase after.1 (front ++ (cursor, after.2) :: after ::
            back) = front ++ (cursor, after.2) :: back := by
          have gone := @erase_eq _ _ (front ++ [(cursor, after.2)]) back after
            (by
              intro other member
              rcases List.mem_append.mp member with inFront | here
              · exact ((starts other inFront).trans above).ne
              · rw [List.mem_singleton.mp here]
                exact above.ne)
            (fun other member => (nonempty.trans (beyond other member)).ne')
          simpa using gone
        rw [erased]
        refine ⟨above.trans nonempty, separated_put rest before
          (above.trans nonempty) beyond, fun number => ?_⟩
        simp only [covers_append, covers_cons]
        grind

/-- A range that ends at the cursor goes on. -/
theorem extend_adds (separated : Separated (front ++ it :: back))
    (inside : it.2 < range.2) :
    Round.Adds range (front ++ it :: back) it.2
      (match back.head? with
        | none => .stop (assign it.1 range.2 (front ++ it :: back))
        | some after =>
            if after.1 > range.2 then
              .stop (assign it.1 range.2 (front ++ it :: back))
            else .go (erase after.1
              (assign it.1 after.2 (front ++ it :: back))) after.2) := by
  obtain ⟨rest, ends, nonempty, later⟩ := separated_drop separated
  obtain ⟨front', -, -⟩ := Separated.append_iff.mp separated
  have starts : ∀ other ∈ front, other.1 < it.1 := fun other member =>
    (front'.nonempty other member).trans (ends other member)
  have made : ∀ end_, assign it.1 end_ (front ++ it :: back) =
      front ++ (it.1, end_) :: back := fun end_ => assign_old starts
  cases back with
  | nil =>
      rw [made]
      refine ⟨separated_put rest ends (nonempty.trans inside) nofun,
        fun number => ?_⟩
      simp only [covers_append, covers_cons]
      grind
  | cons after back =>
      rw [List.head?_cons]
      obtain ⟨rest', -, nonempty', beyond⟩ := separated_drop rest
      by_cases far : after.1 > range.2
      · simp only [if_pos far, made]
        refine ⟨separated_put rest ends (nonempty.trans inside) ?_,
          fun number => ?_⟩
        · intro other member
          rcases List.mem_cons.mp member with rfl | inBack
          · exact far
          · exact far.trans (nonempty'.trans (beyond other inBack))
        · simp only [covers_append, covers_cons]
          grind
      · have above := later after List.mem_cons_self
        simp only [if_neg far, made]
        have erased : erase after.1 (front ++ (it.1, after.2) :: after ::
            back) = front ++ (it.1, after.2) :: back := by
          have gone := @erase_eq _ _ (front ++ [(it.1, after.2)]) back after
            (by
              intro other member
              rcases List.mem_append.mp member with inFront | here
              · exact ((starts other inFront).trans
                  (nonempty.trans above)).ne
              · rw [List.mem_singleton.mp here]
                exact (nonempty.trans above).ne)
            (fun other member => (nonempty'.trans (beyond other member)).ne')
          simpa using gone
        rw [erased]
        refine ⟨above.trans nonempty', separated_put rest' ends
          ((nonempty.trans above).trans nonempty') beyond, fun number => ?_⟩
        simp only [covers_append, covers_cons]
        grind

/-- A round adds numbers of the range from the cursor on. -/
theorem unionRound_adds (separated : Separated ranges)
    (inside : cursor < range.2) :
    (unionRound range ranges cursor).Adds range ranges cursor := by
  have split := upTo_append_behind ranges cursor
  have low : ∀ other ∈ upTo ranges cursor, other.1 ≤ cursor :=
    fun other member => le_of_mem_upTo member
  have high : ∀ other ∈ behind ranges cursor, cursor < other.1 :=
    fun other member => lt_of_mem_behind separated member
  unfold unionRound
  generalize upTo ranges cursor = front at split low
  generalize behind ranges cursor = back at split high
  subst split
  rcases List.eq_nil_or_concat front with rfl | ⟨front, it, rfl⟩
  · exact create_adds separated inside nofun high
  · rw [List.concat_eq_append] at separated low ⊢
    rw [List.getLast?_concat]
    by_cases far : it.2 < cursor
    · simp only [if_pos far]
      refine create_adds separated inside ?_ high
      intro other member
      rcases List.mem_append.mp member with inFront | here
      · rw [List.append_assoc] at separated
        obtain ⟨-, ends, nonempty, -⟩ := separated_drop separated
        exact ((ends other inFront).trans nonempty).trans far
      · rw [List.mem_singleton.mp here]
        exact far
    · rw [List.append_assoc] at separated ⊢
      simp only [if_neg far]
      by_cases here : it.2 = cursor
      · simp only [if_pos here]
        subst here
        exact extend_adds separated inside
      · simp only [if_neg here]
        have start := low it (by simp)
        refine ⟨by omega, separated, fun number => ?_⟩
        simp only [covers_append, covers_cons, List.singleton_append]
        grind

/-- The numbers from `first` up to `last` are in the ground range. -/
def Inside (range ground : UnsignedRange) : Prop :=
  ∀ number, range.1 ≤ number → number < range.2 →
    ground.1 ≤ number ∧ number < ground.2

theorem unionLoop_covers (separated : Separated ranges) {fuel : ℕ}
    (enough : range.2 - cursor ≤ fuel)
    (inside : Inside (cursor, range.2) all) :
    ∃ ranges', unionLoop all range fuel ranges cursor = some ranges' ∧
      Separated ranges' ∧ ∀ number, Covers ranges' number ↔
        Covers ranges number ∨ cursor ≤ number ∧ number < range.2 := by
  induction fuel generalizing ranges cursor with
  | zero =>
      have done : ¬ cursor < range.2 := by omega
      rw [unionLoop, if_neg done]
      refine ⟨ranges, rfl, separated, fun number => ?_⟩
      constructor
      · exact .inl
      · rintro (covered | ⟨low, high⟩)
        · exact covered
        · omega
  | succ fuel induction =>
      by_cases more : cursor < range.2
      · have adds := unionRound_adds separated more
        rw [unionLoop, if_pos more, if_pos (inside cursor (le_refl _) more)]
        cases ended : unionRound range ranges cursor with
        | stop ranges' =>
            rw [ended] at adds
            exact ⟨ranges', rfl, adds⟩
        | go ranges' cursor' =>
            rw [ended] at adds
            obtain ⟨further, separated', same⟩ := adds
            have rest : Inside (cursor', range.2) all := fun number low high =>
              inside number (further.le.trans low) high
            obtain ⟨result, ran, separated'', covers⟩ :=
              induction separated' (show range.2 - cursor' ≤ fuel by omega)
                rest
            exact ⟨result, ran, separated'', fun number =>
              (covers number).trans (same number)⟩
      · rw [unionLoop, if_neg more]
        refine ⟨ranges, rfl, separated, fun number => ?_⟩
        constructor
        · exact .inl
        · rintro (covered | ⟨low, high⟩)
          · exact covered
          · omega

/-- The ranges are not empty, apart from each other and in the ground
range. -/
structure Canonical (mask : RangeMask) : Prop where
  separated : Separated mask.ranges
  within : Within mask.all.1 mask.all.2 mask.ranges
  first : mask.all.1 < unsignedRange
  last : mask.all.2 < unsignedRange

/-- The number is in a range of the mask. -/
abbrev Has (mask : RangeMask) (number : ℕ) : Prop :=
  Covers mask.ranges number

theorem Canonical.has_inside (canonical : mask.Canonical)
    (has : mask.Has number) : mask.all.1 ≤ number ∧ number < mask.all.2 :=
  canonical.within.of_covers has

theorem Canonical.unionRange (canonical : mask.Canonical)
    (inside : Inside range mask.all) :
    ∃ result, mask.unionRange range = some result ∧ result.Canonical ∧
      result.all = mask.all ∧ ∀ number, result.Has number ↔
        mask.Has number ∨ range.1 ≤ number ∧ number < range.2 := by
  obtain ⟨ranges, ran, separated, covers⟩ :=
    unionLoop_covers canonical.separated (le_refl _) inside
  refine ⟨{ mask with ranges }, ?_, ⟨separated, ?_, canonical.first,
    canonical.last⟩, rfl, covers⟩
  · rw [RangeMask.unionRange, ran]
    rfl
  · refine separated.within_iff.mpr fun number covered => ?_
    rcases (covers number).mp covered with old | ⟨low, high⟩
    · exact canonical.has_inside old
    · exact inside number low high

theorem Canonical.unionRanges (canonical : mask.Canonical)
    (inside : ∀ range ∈ ranges, Inside range mask.all) :
    ∃ result, ranges.foldlM RangeMask.unionRange mask = some result ∧
      result.Canonical ∧ result.all = mask.all ∧
      ∀ number, result.Has number ↔ mask.Has number ∨ Covers ranges number := by
  induction ranges generalizing mask with
  | nil => exact ⟨mask, rfl, canonical, rfl, fun number => by simp⟩
  | cons range ranges induction =>
      obtain ⟨between, ran, canonical', all, has⟩ :=
        canonical.unionRange (inside range List.mem_cons_self)
      obtain ⟨result, ran', canonical'', all', has'⟩ := induction canonical'
        fun later member => by
          rw [all]
          exact inside later (List.mem_cons_of_mem _ member)
      refine ⟨result, ?_, canonical'', all'.trans all, fun number => ?_⟩
      · rw [List.foldlM_cons, ran]
        exact ran'
      · rw [has', has, covers_cons, or_assoc]

theorem Canonical.unionMask (canonical : mask.Canonical)
    (canonical' : other.Canonical) :
    ∃ result, mask.unionMask other = some result ∧ result.Canonical ∧
      result.all = (min other.all.1 mask.all.1, max other.all.2 mask.all.2) ∧
      ∀ number, result.Has number ↔ mask.Has number ∨ other.Has number := by
  have wider : Canonical { mask with
      all := (min other.all.1 mask.all.1, max other.all.2 mask.all.2) } := by
    refine ⟨canonical.separated, fun range member => ?_,
      (min_le_right _ _).trans_lt canonical.first,
      max_lt canonical'.last canonical.last⟩
    obtain ⟨low, high⟩ := canonical.within range member
    exact ⟨(min_le_right _ _).trans low, high.trans (le_max_right _ _)⟩
  apply wider.unionRanges
  intro range member number low high
  obtain ⟨above, below⟩ := canonical'.has_inside ⟨range, member, low, high⟩
  exact ⟨(min_le_left _ _).trans above, below.trans_le (le_max_left _ _)⟩

/-! ## Complements -/

theorem assign_last {value : ℕ} (before : ∀ other ∈ front, other.1 < start) :
    assign start value front = front ++ [(start, value)] := by
  have made := @assign_new _ _ front [] start value before nofun
  rwa [List.append_nil] at made

theorem invertedLoop_eq {first last : ℕ} (separated : Separated ranges)
    (within : Within first last ranges) (ordered : first ≤ last)
    (before : ∀ other ∈ front, other.1 < first) :
    (let ended := invertedLoop ranges (front, first)
      if ended.2 ≠ last then assign ended.2 last ended.1 else ended.1) =
      front ++ gaps first last ranges := by
  induction ranges generalizing first front with
  | nil =>
      by_cases empty : first = last
      · simp [invertedLoop, gaps, between, empty]
      · simp [invertedLoop, gaps, between, empty, assign_last before]
  | cons range ranges induction =>
      obtain ⟨low, high, rest⟩ := within.tail separated
      have nonempty := separated.nonempty range List.mem_cons_self
      have later := separated.tail
      by_cases here : range.1 = first
      · have earlier : ∀ other ∈ front, other.1 < range.2 :=
          fun other member => (before other member).trans (here ▸ nonempty)
        have ran := induction later rest high earlier
        simpa [invertedLoop, gaps, between, here] using ran
      · have earlier : ∀ other ∈ front ++ [(first, range.1)],
            other.1 < range.2 := by
          intro other member
          rcases List.mem_append.mp member with inFront | made
          · exact (before other inFront).trans (low.trans_lt nonempty)
          · rw [List.mem_singleton.mp made]
            exact low.trans_lt nonempty
        have ran := induction later rest high earlier
        simpa [invertedLoop, gaps, between, here, Ne.symm here,
          assign_last before] using ran

theorem Canonical.inverted_ranges (canonical : mask.Canonical)
    (ordered : mask.all.1 ≤ mask.all.2) :
    mask.invert.ranges = gaps mask.all.1 mask.all.2 mask.ranges := by
  have ran := @invertedLoop_eq _ [] _ _ canonical.separated canonical.within
    ordered nofun
  rwa [List.nil_append] at ran

theorem Canonical.invert (canonical : mask.Canonical)
    (ordered : mask.all.1 ≤ mask.all.2) :
    mask.invert.Canonical ∧ ∀ number, mask.invert.Has number ↔
      (mask.all.1 ≤ number ∧ number < mask.all.2) ∧ ¬ mask.Has number := by
  have same := canonical.inverted_ranges ordered
  refine ⟨⟨?_, ?_, canonical.first, canonical.last⟩, fun number => ?_⟩
  · rw [same]
    exact separated_gaps canonical.separated canonical.within ordered
  · rw [same]
    exact within_gaps canonical.separated canonical.within
  · rw [Has, same]
    exact covers_gaps canonical.separated canonical.within ordered

/-! ## What is observed -/

theorem unsignedMinus_eq {a b : ℕ} (ordered : b ≤ a)
    (bounded : a < unsignedRange) : unsignedMinus a b = a - b := by
  have same : a + (unsignedRange - b) = (a - b) + unsignedRange := by omega
  rw [unsignedMinus, same, Nat.add_mod_right, Nat.mod_eq_of_lt (by omega)]

namespace Canonical

theorem contains_iff (canonical : mask.Canonical) :
    mask.contains number = true ↔ mask.Has number := by
  rw [Has, covers_iff_upTo canonical.separated, RangeMask.contains]
  cases (upTo mask.ranges number).getLast? with
  | none => simp
  | some it => simp

theorem full_iff (canonical : mask.Canonical) :
    mask.full = true ↔ mask.all.1 ≤ mask.all.2 ∧
      ∀ number, mask.all.1 ≤ number ∧ number < mask.all.2 →
        mask.Has number := by
  rw [RangeMask.full, decide_eq_true_eq]
  constructor
  · rintro (same | whole)
    · refine ⟨same.le, fun number inside => ?_⟩
      omega
    · have nonempty := canonical.separated.nonempty mask.all (by simp [whole])
      refine ⟨nonempty.le, fun number inside => ?_⟩
      rw [Has, whole]
      exact ⟨mask.all, List.mem_cons_self, inside⟩
  · rintro ⟨ordered, every⟩
    by_cases none : mask.all.1 = mask.all.2
    · exact .inl none
    · refine .inr (canonical.separated.ext (Separated.cons_iff.mpr
        ⟨lt_of_le_of_ne ordered none, nofun, Separated.nil⟩) fun number => ?_)
      rw [covers_cons, or_iff_left covers_nil]
      exact ⟨canonical.has_inside, every number⟩

theorem bounded (canonical : mask.Canonical) (member : range ∈ mask.ranges) :
    range.1 < range.2 ∧ range.2 < unsignedRange :=
  ⟨canonical.separated.nonempty range member,
    (canonical.within range member).2.trans_lt canonical.last⟩

theorem length_le (canonical : mask.Canonical) :
    (numbers mask.ranges).length ≤ mask.all.2 - mask.all.1 := by
  have sub : numbers mask.ranges ⊆
      List.range' mask.all.1 (mask.all.2 - mask.all.1) := by
    intro number member
    obtain ⟨low, high⟩ := canonical.has_inside (mem_numbers.mp member)
    exact List.mem_range'_1.mpr ⟨low, by omega⟩
  have increasing := canonical.separated.numbers_increasing
  have nodup : (numbers mask.ranges).Nodup :=
    increasing.imp fun less => Nat.ne_of_lt less
  have counted := (nodup.subperm sub).length_le
  rwa [List.length_range'] at counted

theorem size_eq (canonical : mask.Canonical) :
    mask.size = (numbers mask.ranges).length := by
  have summed : ∀ (ranges : List UnsignedRange) (count : ℕ),
      (∀ range ∈ ranges, range.1 < range.2 ∧ range.2 < unsignedRange) →
      count < 2 ^ 64 → ranges.foldl (fun count range =>
        (count + unsignedMinus range.2 range.1) % 2 ^ 64) count =
        (count + (numbers ranges).length) % 2 ^ 64 := by
    intro ranges
    induction ranges with
    | nil =>
        intro count _ small
        exact (Nat.mod_eq_of_lt small).symm
    | cons range ranges induction =>
        intro count inRange small
        obtain ⟨nonempty, high⟩ := inRange range List.mem_cons_self
        rw [List.foldl_cons, induction _
          (fun later member => inRange later (List.mem_cons_of_mem _ member))
          (Nat.mod_lt _ (by decide)), numbers_cons, List.length_append,
          List.length_range', unsignedMinus_eq nonempty.le high,
          Nat.mod_add_mod, Nat.add_assoc]
  have few := canonical.length_le
  have last := canonical.last
  have limit : unsignedRange ≤ 2 ^ 64 := by decide
  rw [RangeMask.size, summed mask.ranges 0 (fun _ => canonical.bounded)
    (by decide), Nat.zero_add, Nat.mod_eq_of_lt (by omega)]

theorem firstOut_least (canonical : mask.Canonical) :
    IsLeast {number | mask.all.1 ≤ number ∧ ¬ mask.Has number}
      mask.firstOut := by
  unfold RangeMask.firstOut
  cases found : mask.ranges.lookup mask.all.1 with
  | none =>
      refine ⟨⟨le_refl _, ?_⟩, fun number out => out.1⟩
      rintro ⟨range, member, low, -⟩
      have start : range.1 = mask.all.1 :=
        le_antisymm low (canonical.within range member).1
      have missing := List.lookup_eq_none_iff.mp found range member
      simp [start] at missing
  | some end_ =>
      obtain ⟨front, back, split, -⟩ := List.lookup_eq_some_iff.mp found
      have separated := canonical.separated
      rw [split] at separated
      obtain ⟨-, before, nonempty, later⟩ := separated_drop separated
      have member : (mask.all.1, end_) ∈ mask.ranges := by simp [split]
      refine ⟨⟨nonempty.le, ?_⟩, fun number out => ?_⟩
      · rintro ⟨range, inRanges, low, high⟩
        rw [split] at inRanges
        rcases List.mem_append.mp inRanges with inFront | inBack
        · exact absurd ((before range inFront).trans nonempty) high.not_gt
        · rcases List.mem_cons.mp inBack with rfl | behind
          · exact lt_irrefl _ high
          · exact absurd (later range behind) low.not_gt
      · by_contra less
        rw [not_le] at less
        exact out.2 ⟨_, member, out.1, less⟩

theorem lastIn_greatest (canonical : mask.Canonical) (has : mask.Has number) :
    IsGreatest {number | mask.Has number} mask.lastIn := by
  unfold RangeMask.lastIn
  rcases List.eq_nil_or_concat mask.ranges with none | ⟨front, range, split⟩
  · rw [Has, none] at has
    exact absurd has covers_nil
  · rw [List.concat_eq_append] at split
    have separated := canonical.separated
    have inMask : range ∈ mask.ranges := by simp [split]
    obtain ⟨nonempty, high⟩ := canonical.bounded inMask
    rw [split] at separated
    obtain ⟨-, before, -, -⟩ := separated_drop separated
    rw [split, List.getLast?_concat]
    have ended : unsignedMinus range.2 1 = range.2 - 1 :=
      unsignedMinus_eq (by omega) high
    simp only [ended]
    refine ⟨⟨range, inMask, by omega, by omega⟩, ?_⟩
    rintro later ⟨other, member, low, less⟩
    rw [split] at member
    rcases List.mem_append.mp member with inFront | here
    · have ended := before other inFront
      omega
    · rw [List.mem_singleton.mp here] at less
      omega

theorem next_of_has (canonical : mask.Canonical)
    (usual : number + 1 < unsignedRange) (has : mask.Has (number + 1)) :
    mask.next number = number + 1 := by
  have stepped : unsignedPlus number 1 = number + 1 := Nat.mod_eq_of_lt usual
  obtain ⟨it, last, inside⟩ := (covers_iff_upTo canonical.separated).mp has
  have low := le_of_mem_upTo (List.mem_of_getLast? last)
  simp only [RangeMask.next, stepped, last, low, inside, and_self, if_true]

theorem next_of_not_has (canonical : mask.Canonical)
    (usual : number + 1 < unsignedRange) (out : ¬ mask.Has (number + 1)) :
    mask.next number = mask.beginAfter (number + 1) := by
  have stepped : unsignedPlus number 1 = number + 1 := Nat.mod_eq_of_lt usual
  cases last : (upTo mask.ranges (number + 1)).getLast? with
  | none => simp only [RangeMask.next, stepped, last]
  | some it =>
      have outside : ¬ (it.1 ≤ number + 1 ∧ number + 1 < it.2) := fun inside =>
        out ((covers_iff_upTo canonical.separated).mpr ⟨it, last, inside.2⟩)
      simp only [RangeMask.next, stepped, last, if_neg outside]

/-- What is behind a number that is not in the mask is in a range that begins
behind it. -/
theorem behind_of_has (out : ¬ mask.Has number) {later : ℕ}
    (has : mask.Has later) (above : number ≤ later) :
    Covers (behind mask.ranges number) later := by
  obtain ⟨range, member, low, less⟩ := has
  have split := upTo_append_behind mask.ranges number
  rw [← split] at member
  rcases List.mem_append.mp member with inFront | inBack
  · refine absurd ⟨range, ?_, le_of_mem_upTo inFront, by omega⟩ out
    rw [← split]
    exact List.mem_append_left _ inFront
  · exact ⟨range, inBack, low, less⟩

/-- `next` finds the least number of the mask behind another, or the end of
the ground range. -/
theorem next_spec (canonical : mask.Canonical)
    (usual : number + 1 < unsignedRange) :
    IsLeast {later | mask.Has later ∧ number < later} (mask.next number) ∨
      mask.next number = mask.all.2 ∧
        ∀ later, mask.Has later → later ≤ number := by
  by_cases has : mask.Has (number + 1)
  · rw [canonical.next_of_has usual has]
    exact .inl ⟨⟨has, Nat.lt_succ_self _⟩, fun later others => others.2⟩
  · rw [canonical.next_of_not_has usual has, beginAfter]
    have later : ∀ later, mask.Has later → number < later →
        Covers (behind mask.ranges (number + 1)) later :=
      fun later inMask above => behind_of_has has inMask above
    have separated := canonical.separated
    have high : ∀ other ∈ behind mask.ranges (number + 1),
        number + 1 < other.1 :=
      fun other member => lt_of_mem_behind separated member
    have split := upTo_append_behind mask.ranges (number + 1)
    rw [← split] at separated
    obtain ⟨-, separated, -⟩ := Separated.append_iff.mp separated
    cases rest : behind mask.ranges (number + 1) with
    | nil =>
        rw [rest] at later
        refine .inr ⟨rfl, fun other inMask => ?_⟩
        by_contra above
        exact absurd (later other inMask (by omega)) covers_nil
    | cons uit back =>
        rw [rest] at later separated high split
        have nonempty := separated.nonempty uit List.mem_cons_self
        have above := high uit List.mem_cons_self
        have member : uit ∈ mask.ranges := by
          rw [← split]
          simp
        refine .inl ⟨⟨⟨uit, member, le_refl _, nonempty⟩, ?_⟩, ?_⟩
        · exact (Nat.lt_succ_self number).trans above
        · rintro other ⟨inMask, greater⟩
          rcases covers_cons.mp (later other inMask greater) with here | rest
          · exact here.1
          · exact (nonempty.trans (separated.beyond rest)).le

/-- From a number of the mask on, or from the end, the numbers of the mask are
visited in order. -/
theorem iterateLoop_eq (canonical : mask.Canonical) {list : List ℕ}
    (increasing : list.Pairwise (· < ·)) {value : ℕ}
    (start : value = list.headD mask.all.2)
    (same : ∀ later, later ∈ list ↔ mask.Has later ∧ value ≤ later)
    {fuel : ℕ} (enough : list.length ≤ fuel) :
    mask.iterateLoop fuel value = some list := by
  induction list generalizing value fuel with
  | nil =>
      have ended : value = mask.all.2 := start
      unfold iterateLoop
      rw [if_pos ended]
  | cons number list induction =>
      rw [List.headD_cons] at start
      subst start
      obtain ⟨least, increasing⟩ := List.pairwise_cons.mp increasing
      obtain ⟨has, -⟩ := (same value).mp List.mem_cons_self
      obtain ⟨low, high⟩ := canonical.has_inside has
      have last := canonical.last
      cases fuel with
      | zero => cases enough
      | succ fuel =>
          have behind : ∀ later, later ∈ list ↔
              mask.Has later ∧ value < later := by
            intro later
            constructor
            · intro member
              exact ⟨((same later).mp (List.mem_cons_of_mem _ member)).1,
                least later member⟩
            · rintro ⟨inMask, above⟩
              rcases List.mem_cons.mp ((same later).mpr
                ⟨inMask, above.le⟩) with rfl | member
              · exact absurd above (lt_irrefl _)
              · exact member
          have usual : value + 1 < unsignedRange := by omega
          have rest : mask.iterateLoop fuel (mask.next value) = some list := by
            apply induction increasing
            · rcases canonical.next_spec usual with least' | ⟨ended, none⟩
              · cases list with
                | nil => exact absurd ((behind _).mpr least'.1) List.not_mem_nil
                | cons later list =>
                    have first := (behind later).mp List.mem_cons_self
                    apply le_antisymm (least'.2 first)
                    rcases List.mem_cons.mp ((behind _).mpr least'.1) with
                      same | member
                    · exact same.ge
                    · exact ((List.pairwise_cons.mp increasing).1 _ member).le
              · cases list with
                | nil => exact ended
                | cons later list =>
                    obtain ⟨inMask, above⟩ :=
                      (behind later).mp List.mem_cons_self
                    exact absurd above (none later inMask).not_gt
            · intro later
              rw [behind]
              constructor
              · rintro ⟨inMask, above⟩
                refine ⟨inMask, ?_⟩
                rcases canonical.next_spec usual with least' | ⟨-, none⟩
                · exact least'.2 ⟨inMask, above⟩
                · exact absurd above (none later inMask).not_gt
              · rintro ⟨inMask, above⟩
                refine ⟨inMask, ?_⟩
                rcases canonical.next_spec usual with least' | ⟨ended, -⟩
                · exact least'.1.2.trans_le above
                · rw [ended] at above
                  exact absurd (canonical.has_inside inMask).2 above.not_gt
            · simpa using enough
          unfold iterateLoop
          simp only [if_neg high.ne, rest]
          rfl

theorem iterate_eq (canonical : mask.Canonical) {fuel : ℕ}
    (enough : (numbers mask.ranges).length ≤ fuel) :
    mask.iterate fuel = some (numbers mask.ranges) := by
  have increasing := canonical.separated.numbers_increasing
  have begins : mask.begin_ = (numbers mask.ranges).headD mask.all.2 := by
    unfold begin_
    cases ranges : mask.ranges with
    | nil => rfl
    | cons range ranges' =>
        have nonempty := canonical.separated.nonempty range (by simp [ranges])
        obtain ⟨more, count⟩ : ∃ more, range.2 - range.1 = more + 1 :=
          ⟨range.2 - range.1 - 1, by omega⟩
        rw [numbers_cons, count, List.range'_succ]
        rfl
  apply canonical.iterateLoop_eq increasing begins _ enough
  intro number
  rw [mem_numbers]
  constructor
  · intro has
    refine ⟨has, ?_⟩
    rw [begins]
    have member := mem_numbers.mpr has
    revert member increasing
    cases numbers mask.ranges with
    | nil => exact fun _ member => absurd member List.not_mem_nil
    | cons first list =>
        intro increasing member
        rcases List.mem_cons.mp member with rfl | inRest
        · exact le_refl _
        · exact ((List.pairwise_cons.mp increasing).1 number inRest).le
  · exact And.left

end Canonical

end RangeMask

end Aecmio
