import Mathlib

/-!
# Sets of numbers as lists of intervals

A set is kept as the list of its half-open intervals, in order.  They are not
empty and there is a gap between each and the next, so that a set has one such
list only.
-/

namespace Intervals

section

variable {α : Type} [LinearOrder α]

/-- The point is in one of the intervals. -/
def Covers (ranges : List (α × α)) (point : α) : Prop :=
  ∃ range ∈ ranges, range.1 ≤ point ∧ point < range.2

/-- None of the intervals is empty, and there is a gap behind each. -/
structure Separated (ranges : List (α × α)) : Prop where
  nonempty : ∀ range ∈ ranges, range.1 < range.2
  ordered : ranges.Pairwise fun range later => range.2 < later.1

/-- All intervals are between two points. -/
def Within (first last : α) (ranges : List (α × α)) : Prop :=
  ∀ range ∈ ranges, first ≤ range.1 ∧ range.2 ≤ last

variable {ranges others front back : List (α × α)} {range : α × α}
  {point first last : α}

/-! ## Points -/

@[simp]
theorem covers_nil : ¬ Covers [] point := by
  simp [Covers]

@[simp]
theorem covers_cons : Covers (range :: ranges) point ↔
    range.1 ≤ point ∧ point < range.2 ∨ Covers ranges point := by
  simp [Covers]

@[simp]
theorem covers_append : Covers (front ++ back) point ↔
    Covers front point ∨ Covers back point := by
  simp [Covers, or_and_right, exists_or]

theorem Within.of_covers (within : Within first last ranges)
    (covered : Covers ranges point) : first ≤ point ∧ point < last := by
  obtain ⟨range, member, low, high⟩ := covered
  obtain ⟨above, below⟩ := within range member
  exact ⟨above.trans low, high.trans_le below⟩

namespace Separated

theorem nil : Separated ([] : List (α × α)) := ⟨nofun, .nil⟩

theorem cons_iff : Separated (range :: ranges) ↔ range.1 < range.2 ∧
    (∀ later ∈ ranges, range.2 < later.1) ∧ Separated ranges := by
  constructor
  · rintro ⟨nonempty, ordered⟩
    obtain ⟨here, behind⟩ := List.pairwise_cons.mp ordered
    exact ⟨nonempty range List.mem_cons_self, here,
      fun later member => nonempty later (List.mem_cons_of_mem _ member),
      behind⟩
  · rintro ⟨nonempty, here, behind⟩
    refine ⟨?_, List.pairwise_cons.mpr ⟨here, behind.ordered⟩⟩
    intro later member
    rcases List.mem_cons.mp member with rfl | member
    · exact nonempty
    · exact behind.nonempty later member

theorem append_iff : Separated (front ++ back) ↔
    Separated front ∧ Separated back ∧
      ∀ range ∈ front, ∀ later ∈ back, range.2 < later.1 := by
  constructor
  · rintro ⟨nonempty, ordered⟩
    obtain ⟨before, behind, between⟩ := List.pairwise_append.mp ordered
    exact ⟨⟨fun range member => nonempty range
        (List.mem_append_left _ member), before⟩,
      ⟨fun range member => nonempty range
        (List.mem_append_right _ member), behind⟩, between⟩
  · rintro ⟨before, behind, between⟩
    refine ⟨?_, List.pairwise_append.mpr
      ⟨before.ordered, behind.ordered, between⟩⟩
    intro range member
    rcases List.mem_append.mp member with inFront | inBack
    · exact before.nonempty range inFront
    · exact behind.nonempty range inBack

theorem tail (separated : Separated (range :: ranges)) : Separated ranges :=
  (cons_iff.mp separated).2.2

/-- Nothing up to the end of the first interval is in a later one. -/
theorem beyond (separated : Separated (range :: ranges))
    (covered : Covers ranges point) : range.2 < point := by
  obtain ⟨later, member, low, -⟩ := covered
  exact ((cons_iff.mp separated).2.1 later member).trans_le low

/-- Of two lists of a set, the first intervals start at the same point. -/
theorem head_le {other : α × α} (separated : Separated (range :: ranges))
    (same : ∀ point, Covers (other :: others) point →
      Covers (range :: ranges) point)
    (nonempty : other.1 < other.2) : range.1 ≤ other.1 := by
  have covered := same other.1 (covers_cons.mpr (.inl ⟨le_refl _, nonempty⟩))
  rcases covers_cons.mp covered with here | later
  · exact here.1
  · exact ((separated.nonempty range List.mem_cons_self).trans
      (separated.beyond later)).le

/-- They end at the same point. -/
theorem head_end {other : α × α} (separated : Separated (range :: ranges))
    (same : ∀ point, Covers (other :: others) point →
      Covers (range :: ranges) point)
    (start : range.1 = other.1) (nonempty : range.1 < range.2) :
    other.2 ≤ range.2 := by
  by_contra longer
  rw [not_le] at longer
  have covered := same range.2 (covers_cons.mpr
    (.inl ⟨start ▸ nonempty.le, longer⟩))
  rcases covers_cons.mp covered with here | later
  · exact lt_irrefl _ here.2
  · exact lt_irrefl _ (separated.beyond later)

/-- A set has one separated list of intervals. -/
theorem ext (separated : Separated ranges) (separated' : Separated others)
    (same : ∀ point, Covers ranges point ↔ Covers others point) :
    ranges = others := by
  induction ranges generalizing others with
  | nil =>
      cases others with
      | nil => rfl
      | cons other others =>
          have nonempty := separated'.nonempty other List.mem_cons_self
          have covered := (same other.1).mpr
            (covers_cons.mpr (.inl ⟨le_refl _, nonempty⟩))
          exact absurd covered covers_nil
  | cons range ranges induction =>
      have nonempty := separated.nonempty range List.mem_cons_self
      cases others with
      | nil =>
          have covered := (same range.1).mp
            (covers_cons.mpr (.inl ⟨le_refl _, nonempty⟩))
          exact absurd covered covers_nil
      | cons other others =>
          have nonempty' := separated'.nonempty other List.mem_cons_self
          have start : range.1 = other.1 := le_antisymm
            (separated.head_le (fun point => (same point).mpr) nonempty')
            (separated'.head_le (fun point => (same point).mp) nonempty)
          have end_ : range.2 = other.2 := le_antisymm
            (separated'.head_end (fun point => (same point).mp) start.symm
              nonempty')
            (separated.head_end (fun point => (same point).mpr) start
              nonempty)
          obtain rfl : range = other := Prod.ext start end_
          rw [induction separated.tail separated'.tail]
          intro point
          constructor
          · intro covered
            rcases covers_cons.mp ((same point).mp
              (covers_cons.mpr (.inr covered))) with here | later
            · exact absurd here.2 (separated.beyond covered).not_gt
            · exact later
          · intro covered
            rcases covers_cons.mp ((same point).mpr
              (covers_cons.mpr (.inr covered))) with here | later
            · exact absurd here.2 (separated'.beyond covered).not_gt
            · exact later

end Separated

/-! ## The map from the starts to the ends -/

/-- The entries that an upper bound of the key is behind. -/
def upTo (ranges : List (α × α)) (key : α) : List (α × α) :=
  ranges.takeWhile fun range => range.1 ≤ key

/-- The entries from an upper bound of the key on. -/
def behind (ranges : List (α × α)) (key : α) : List (α × α) :=
  ranges.dropWhile fun range => range.1 ≤ key

/-- The entry of the key is set, or a new one made. -/
def assign (key value : α) : List (α × α) → List (α × α)
  | [] => [(key, value)]
  | (other, end_) :: ranges =>
      if key < other then (key, value) :: (other, end_) :: ranges
      else if key = other then (key, value) :: ranges
      else (other, end_) :: assign key value ranges

/-- The entry of the key is removed. -/
def erase (key : α) (ranges : List (α × α)) : List (α × α) :=
  ranges.filter fun range => range.1 ≠ key

theorem upTo_append_behind (ranges : List (α × α)) (key : α) :
    upTo ranges key ++ behind ranges key = ranges :=
  List.takeWhile_append_dropWhile

theorem le_of_mem_upTo {key : α} (member : range ∈ upTo ranges key) :
    range.1 ≤ key := by
  have kept := List.mem_takeWhile_imp member
  simpa using kept

theorem lt_of_mem_behind {key : α} (separated : Separated ranges)
    (member : range ∈ behind ranges key) : key < range.1 := by
  induction ranges with
  | nil => cases member
  | cons first ranges induction =>
      unfold behind at member induction
      by_cases low : first.1 ≤ key
      · rw [List.dropWhile_cons_of_pos (by simpa using low)] at member
        exact induction separated.tail member
      · rw [List.dropWhile_cons_of_neg (by simpa using low)] at member
        rw [not_le] at low
        obtain ⟨nonempty, later, -⟩ := Separated.cons_iff.mp separated
        rcases List.mem_cons.mp member with rfl | inRest
        · exact low
        · exact low.trans (nonempty.trans (later range inRest))

/-- A new entry goes where its key is in order. -/
theorem assign_new {key value : α} (before : ∀ range ∈ front, range.1 < key)
    (after : ∀ range ∈ back, key < range.1) :
    assign key value (front ++ back) = front ++ (key, value) :: back := by
  induction front with
  | nil =>
      cases back with
      | nil => rfl
      | cons next back =>
          have above := after next List.mem_cons_self
          simp [assign, above]
  | cons range front induction =>
      have below := before range List.mem_cons_self
      have rest := induction
        fun other member => before other (List.mem_cons_of_mem _ member)
      simp [assign, below.not_gt, below.ne', rest]

/-- An entry that is there gets another end. -/
theorem assign_old {key value end_ : α}
    (before : ∀ range ∈ front, range.1 < key) :
    assign key value (front ++ (key, end_) :: back) =
      front ++ (key, value) :: back := by
  induction front with
  | nil => simp [assign]
  | cons range front induction =>
      have below := before range List.mem_cons_self
      have rest := induction
        fun other member => before other (List.mem_cons_of_mem _ member)
      simp [assign, below.not_gt, below.ne', rest]

theorem erase_eq (before : ∀ other ∈ front, other.1 ≠ range.1)
    (after : ∀ other ∈ back, other.1 ≠ range.1) :
    erase range.1 (front ++ range :: back) = front ++ back := by
  have kept : ∀ {list : List (α × α)}, (∀ other ∈ list, other.1 ≠ range.1) →
      erase range.1 list = list := by
    intro list differ
    apply List.filter_eq_self.mpr
    intro other member
    simpa using differ other member
  have here := kept before
  have there := kept after
  simp only [erase] at here there ⊢
  rw [List.filter_append, List.filter_cons_of_neg (by simp), here, there]

/-! ## Where a point is -/

/-- The point is in no interval but the last that starts up to it. -/
theorem covers_iff_upTo (separated : Separated ranges) :
    Covers ranges point ↔
      ∃ range, (upTo ranges point).getLast? = some range ∧
        point < range.2 := by
  have split := upTo_append_behind ranges point
  have notBehind : ¬ Covers (behind ranges point) point := by
    rintro ⟨range, member, low, -⟩
    exact absurd low (lt_of_mem_behind separated member).not_ge
  rw [← split] at separated
  obtain ⟨before, -, -⟩ := Separated.append_iff.mp separated
  have only : Covers ranges point ↔ Covers (upTo ranges point) point := by
    conv_lhs => rw [← split]
    rw [covers_append, or_iff_left notBehind]
  rw [only]
  have low : ∀ range ∈ upTo ranges point, range.1 ≤ point :=
    fun range member => le_of_mem_upTo member
  generalize upTo ranges point = list at before low
  rcases List.eq_nil_or_concat list with rfl | ⟨front, range, rfl⟩
  · simp
  · rw [List.concat_eq_append] at before low ⊢
    rw [List.getLast?_concat, covers_append, covers_cons]
    obtain ⟨-, -, between⟩ := Separated.append_iff.mp before
    have here := low range (by simp)
    have notFront : ¬ Covers front point := by
      rintro ⟨other, member, -, high⟩
      have gap := between other member range List.mem_cons_self
      exact absurd (gap.trans_le here) high.not_gt
    simp [notFront, here]

/-! ## Complements -/

theorem Within.tail (within : Within first last (range :: ranges))
    (separated : Separated (range :: ranges)) :
    first ≤ range.1 ∧ range.2 ≤ last ∧ Within range.2 last ranges := by
  obtain ⟨low, high⟩ := within range List.mem_cons_self
  refine ⟨low, high, fun later member => ⟨?_, ?_⟩⟩
  · exact ((Separated.cons_iff.mp separated).2.1 later member).le
  · exact (within later (List.mem_cons_of_mem _ member)).2

/-- The interval between two points, if it is not empty. -/
def between (first last : α) : List (α × α) :=
  if first ≠ last then [(first, last)] else []

/-- The intervals between `first` and `last` that are left out. -/
def gaps (first last : α) : List (α × α) → List (α × α)
  | [] => between first last
  | range :: ranges => between first range.1 ++ gaps range.2 last ranges

theorem covers_between :
    Covers (between first last) point ↔ first ≤ point ∧ point < last := by
  by_cases empty : first = last
  · simp [between, empty]
  · simp [between, empty]

theorem separated_between (ordered : first ≤ last) :
    Separated (between first last) := by
  by_cases empty : first = last
  · simp [between, empty, Separated.nil]
  · have less := lt_of_le_of_ne ordered empty
    simp [between, empty, Separated.cons_iff, Separated.nil, less]

theorem eq_of_mem_between (member : range ∈ between first last) :
    range = (first, last) := by
  unfold between at member
  split at member
  · exact List.mem_singleton.mp member
  · cases member

theorem within_gaps (separated : Separated ranges)
    (within : Within first last ranges) :
    Within first last (gaps first last ranges) := by
  induction ranges generalizing first with
  | nil =>
      intro gap member
      rw [eq_of_mem_between member]
      exact ⟨le_refl _, le_refl _⟩
  | cons range ranges induction =>
      obtain ⟨low, high, rest⟩ := within.tail separated
      obtain ⟨nonempty, -, separated⟩ := Separated.cons_iff.mp separated
      intro gap member
      rcases List.mem_append.mp member with here | there
      · rw [eq_of_mem_between here]
        exact ⟨le_refl _, nonempty.le.trans high⟩
      · obtain ⟨above, below⟩ := induction separated rest gap there
        exact ⟨(low.trans nonempty.le).trans above, below⟩

theorem separated_gaps (separated : Separated ranges)
    (within : Within first last ranges) (ordered : first ≤ last) :
    Separated (gaps first last ranges) := by
  induction ranges generalizing first with
  | nil => exact separated_between ordered
  | cons range ranges induction =>
      obtain ⟨low, high, rest⟩ := within.tail separated
      obtain ⟨nonempty, -, separated⟩ := Separated.cons_iff.mp separated
      refine Separated.append_iff.mpr ⟨separated_between low,
        induction separated rest high, ?_⟩
      intro gap here other there
      rw [eq_of_mem_between here]
      exact nonempty.trans_le (within_gaps separated rest other there).1

/-- The gaps cover the points that the intervals do not. -/
theorem covers_gaps (separated : Separated ranges)
    (within : Within first last ranges) (ordered : first ≤ last) :
    Covers (gaps first last ranges) point ↔
      (first ≤ point ∧ point < last) ∧ ¬ Covers ranges point := by
  induction ranges generalizing first with
  | nil => simp [gaps, covers_between]
  | cons range ranges induction =>
      have beyond : Covers ranges point → range.2 < point := separated.beyond
      obtain ⟨low, high, rest⟩ := within.tail separated
      obtain ⟨nonempty, -, separated⟩ := Separated.cons_iff.mp separated
      rw [gaps, covers_append, covers_between, induction separated rest
        high, covers_cons]
      constructor
      · rintro (⟨above, below⟩ | ⟨⟨above, below⟩, out⟩)
        · refine ⟨⟨above, (below.trans nonempty).trans_le high⟩, ?_⟩
          rintro (⟨start, -⟩ | member)
          · exact absurd below start.not_gt
          · exact absurd (beyond member) (below.trans nonempty).not_gt
        · refine ⟨⟨(low.trans nonempty.le).trans above, below⟩, ?_⟩
          rintro (⟨-, less⟩ | member)
          · exact absurd above less.not_ge
          · exact out member
      · rintro ⟨⟨above, below⟩, out⟩
        rw [not_or, not_and, not_lt] at out
        by_cases before : point < range.1
        · exact .inl ⟨above, before⟩
        · exact .inr ⟨⟨out.1 (not_lt.mp before), below⟩, out.2⟩

end

/-! ## Numbers -/

section

variable {ranges : List (ℕ × ℕ)} {range : ℕ × ℕ} {number : ℕ}

theorem Separated.within_iff (separated : Separated ranges)
    {first last : ℕ} : Within first last ranges ↔
      ∀ number, Covers ranges number → first ≤ number ∧ number < last := by
  constructor
  · exact fun within number => within.of_covers
  · intro covered range member
    have nonempty := separated.nonempty range member
    obtain ⟨low, -⟩ := covered range.1 ⟨range, member, le_refl _, nonempty⟩
    obtain ⟨-, high⟩ := covered (range.2 - 1)
      ⟨range, member, by omega, by omega⟩
    exact ⟨low, by omega⟩

/-- The numbers in the intervals, in order. -/
def numbers (ranges : List (ℕ × ℕ)) : List ℕ :=
  ranges.flatMap fun range => List.range' range.1 (range.2 - range.1)

@[simp]
theorem numbers_cons (range : ℕ × ℕ) (ranges : List (ℕ × ℕ)) :
    numbers (range :: ranges) =
      List.range' range.1 (range.2 - range.1) ++ numbers ranges := rfl

theorem mem_numbers : number ∈ numbers ranges ↔ Covers ranges number := by
  simp only [numbers, List.mem_flatMap, Covers, List.mem_range'_1]
  constructor
  · rintro ⟨range, member, low, high⟩
    exact ⟨range, member, low, by omega⟩
  · rintro ⟨range, member, low, high⟩
    exact ⟨range, member, low, by omega⟩

theorem Separated.numbers_increasing (separated : Separated ranges) :
    (numbers ranges).Pairwise (· < ·) := by
  induction ranges with
  | nil => exact .nil
  | cons range ranges induction =>
      rw [numbers_cons]
      refine List.pairwise_append.mpr ⟨List.pairwise_lt_range',
        induction separated.tail, ?_⟩
      intro number here later there
      have above := separated.beyond (mem_numbers.mp there)
      obtain ⟨low, high⟩ := List.mem_range'_1.mp here
      omega

theorem length_numbers (ranges : List (ℕ × ℕ)) : (numbers ranges).length =
    (ranges.map fun range => range.2 - range.1).sum := by
  simp [numbers, List.length_flatMap]

end

end Intervals
