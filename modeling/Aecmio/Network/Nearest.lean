import Aecmio.Logic.Selection
import Aecmio.Network.Buckets

/-!
# The nearest entries

`nearestNodeEntries` goes from the bucket of the target outwards to both
sides, one bucket on each side in a round, and stops when one side is at its
end.  So it never looks at the first bucket of nodes, but for a target next to
the own node, and at few buckets for a target that is far away.
-/

namespace Aecmio

/-! ## Distances -/

theorem log2_xor_of_lt {first second : Nat}
    (less : Nat.log2 second < Nat.log2 first) :
    Nat.log2 (first ^^^ second) = Nat.log2 first := by
  have nonzero : first ≠ 0 := by
    intro zero
    rw [zero, Nat.log2_zero] at less
    omega
  obtain ⟨low, high⟩ := (Nat.log2_eq_iff nonzero).mp rfl
  have small : second < 2 ^ Nat.log2 first :=
    Nat.lt_log2_self.trans_le (Nat.pow_le_pow_right (by decide) less)
  have below : first ^^^ second < 2 ^ (Nat.log2 first + 1) :=
    Nat.xor_lt_two_pow high (small.trans_le
      (Nat.pow_le_pow_right (by decide) (Nat.le_succ _)))
  have above : 2 ^ Nat.log2 first ≤ first ^^^ second := by
    by_contra short
    have back := Nat.xor_lt_two_pow (not_le.mp short) small
    rw [Nat.xor_assoc, Nat.xor_self, Nat.xor_zero] at back
    omega
  have positive : 0 < 2 ^ Nat.log2 first := Nat.two_pow_pos _
  exact (Nat.log2_eq_iff (by omega)).mpr ⟨above, below⟩

/-- The highest bits cancel. -/
theorem log2_xor_lt {first second : Nat} (positive : 1 ≤ Nat.log2 first)
    (same : Nat.log2 second = Nat.log2 first) :
    Nat.log2 (first ^^^ second) < Nat.log2 first := by
  have nonzero : ∀ number, Nat.log2 number = Nat.log2 first → number ≠ 0 := by
    rintro number same rfl
    rw [Nat.log2_zero] at same
    omega
  obtain ⟨low, high⟩ := (Nat.log2_eq_iff (nonzero first rfl)).mp rfl
  obtain ⟨low', high'⟩ := (Nat.log2_eq_iff (nonzero second same)).mp same
  by_cases zero : first ^^^ second = 0
  · rw [zero, Nat.log2_zero]
    omega
  · rw [Nat.log2_lt zero]
    apply Nat.lt_pow_two_of_testBit
    intro position above
    rw [Nat.testBit_xor]
    rcases Nat.eq_or_lt_of_le above with rfl | above
    · have top := Nat.testBit_log2 (nonzero second same)
      rw [same] at top
      rw [Nat.testBit_log2 (nonzero first rfl), top, Bool.xor_self]
    · rw [Nat.testBit_lt_two_pow (high.trans_le
          (Nat.pow_le_pow_right (by decide) above)),
        Nat.testBit_lt_two_pow (high'.trans_le
          (Nat.pow_le_pow_right (by decide) above)), Bool.xor_self]

namespace NodeTable

section

variable [Hashing] {own target other : NodeID}

theorem distance_eq (own target other : NodeID) : distance target other =
    Nat.log2 ((fromBigEndian (sha3 own.val).val ^^^
        fromBigEndian (sha3 target.val).val) ^^^
      (fromBigEndian (sha3 own.val).val ^^^
        fromBigEndian (sha3 other.val).val)) := by
  rw [Nat.xor_comm (fromBigEndian (sha3 own.val).val), Nat.xor_assoc,
    Nat.xor_xor_cancel_left]
  rfl

/-- A node that is nearer to the own one than the target. -/
theorem distance_of_lt (nearer : distance own other < distance own target) :
    distance target other = distance own target := by
  rw [distance_eq own]
  exact log2_xor_of_lt nearer

/-- A node that is farther than the target. -/
theorem distance_of_gt (farther : distance own target < distance own other) :
    distance target other = distance own other := by
  rw [distance_eq own, Nat.xor_comm]
  exact log2_xor_of_lt farther

/-- A node that is as far as the target. -/
theorem distance_lt_of_eq (positive : 1 ≤ distance own target)
    (same : distance own other = distance own target) :
    distance target other < distance own target := by
  rw [distance_eq own]
  exact log2_xor_lt positive same

theorem distance_le (own target : NodeID) : distance own target ≤ 255 := by
  have left := fromBigEndian_lt (sha3 own.val).val
  have right := fromBigEndian_lt (sha3 target.val).val
  rw [(sha3 _).property] at left right
  have both := Nat.xor_lt_two_pow (n := 256)
    (left.trans_eq (by decide)) (right.trans_eq (by decide))
  unfold distance
  by_cases zero : fromBigEndian (sha3 own.val).val ^^^
      fromBigEndian (sha3 target.val).val = 0
  · rw [zero, Nat.log2_zero]
    exact Nat.zero_le _
  · exact Nat.le_of_lt_succ ((Nat.log2_lt zero).mpr both)

end

/-! ## The buckets that are looked at -/

/-- The first bucket that is looked at, for a target at a distance. -/
def firstLookedAt (head : Nat) : Nat :=
  if head = 0 then 0 else if head = s_bins then 1 else max 1 (2 * head - s_bins)

theorem spread_perm {rounds head tail : Nat} (apart : tail < head)
    (inside : head ≤ 255) (enough : 255 ≤ head + rounds) :
    (spread rounds head tail).Perm
      (List.range' head (255 - head) ++
        List.range' (max 1 (tail + 1 - (255 - head)))
          (tail + 1 - max 1 (tail + 1 - (255 - head)))) := by
  have bins : s_bins = 255 := rfl
  induction rounds generalizing head tail with
  | zero =>
      have last : head = 255 := by omega
      subst last
      have none : tail + 1 - max 1 (tail + 1 - (255 - 255)) = 0 := by omega
      rw [none]
      exact .refl _
  | succ rounds induction =>
      unfold spread
      by_cases more : head < 255
      · rw [if_pos ⟨by omega, bins ▸ more⟩]
        have rest := @induction (head + 1) (tail - 1) (by omega) (by omega)
          (by omega)
        have up : List.range' head (255 - head) =
            head :: List.range' (head + 1) (255 - (head + 1)) := by
          rw [show 255 - head = 255 - (head + 1) + 1 by omega, List.range'_succ]
        rw [up, List.cons_append, List.cons_append]
        apply List.Perm.cons
        by_cases start : tail = 0
        · subst start
          rw [if_neg (by simp), List.nil_append]
          have none : 0 + 1 - max 1 (0 + 1 - (255 - head)) = 0 := by omega
          have none' : 0 - 1 + 1 -
              max 1 (0 - 1 + 1 - (255 - (head + 1))) = 0 := by omega
          rw [none'] at rest
          rw [none]
          exact rest
        · rw [if_pos start, List.singleton_append]
          have low : max 1 (tail - 1 + 1 - (255 - (head + 1))) =
              max 1 (tail + 1 - (255 - head)) := by omega
          have down : List.range' (max 1 (tail + 1 - (255 - head)))
              (tail + 1 - max 1 (tail + 1 - (255 - head))) =
                List.range' (max 1 (tail + 1 - (255 - head)))
                  (tail - 1 + 1 - max 1 (tail + 1 - (255 - head))) ++
                  [tail] := by
            rw [show tail + 1 - max 1 (tail + 1 - (255 - head)) =
                tail - 1 + 1 - max 1 (tail + 1 - (255 - head)) + 1 by omega,
              List.range'_concat]
            congr 2
            omega
          rw [low] at rest
          rw [down, ← List.append_assoc]
          exact (rest.cons tail).trans (List.perm_append_singleton ..).symm
      · have last : head = 255 := by omega
        subst last
        have stop : ¬(255 ≠ tail ∧ 255 < s_bins) := by
          rw [bins]
          exact fun both => absurd both.2 (lt_irrefl _)
        have none : tail + 1 - max 1 (tail + 1 - (255 - 255)) = 0 := by omega
        rw [if_neg stop, none]
        exact .refl _

/-- All buckets from the first one on are looked at. -/
theorem lookedAt_perm {head : Nat} (inside : head ≤ 255) :
    (lookedAt head).Perm
      (List.range' (firstLookedAt head) (255 - firstLookedAt head)) := by
  have bins : s_bins = 255 := rfl
  unfold lookedAt firstLookedAt
  rw [bins]
  by_cases near : head < 2
  · rw [if_neg (by omega), if_pos near]
    interval_cases head
    · exact .refl _
    · exact .refl _
  · have notZero : head ≠ 0 := by omega
    dsimp only
    rw [if_neg notZero, if_neg notZero]
    by_cases last : head = 255
    · subst last
      exact List.reverse_perm _
    · have tail : (head - 1) % 255 = head - 1 := Nat.mod_eq_of_lt (by omega)
      rw [tail, if_pos ⟨by omega, by omega⟩, if_neg last]
      have both := @spread_perm 255 head (head - 1) (by omega) inside
        (by omega)
      have low : max 1 (head - 1 + 1 - (255 - head)) =
          max 1 (2 * head - 255) := by omega
      rw [low, show head - 1 + 1 = head by omega] at both
      have joined := @List.range'_append_1 (max 1 (2 * head - 255))
        (head - max 1 (2 * head - 255)) (255 - head)
      rw [show max 1 (2 * head - 255) + (head - max 1 (2 * head - 255)) =
          head by omega,
        show head - max 1 (2 * head - 255) + (255 - head) =
          255 - max 1 (2 * head - 255) by omega] at joined
      exact both.trans (List.perm_append_comm.trans (.of_eq joined))

/-! ## The entries -/

/-- `!!n->endpoint && n->endpoint.isAllowed()`. -/
def isAllowed (table : NodeTable) (number : Nat) : Bool :=
  (table.entry number).endpoint.isSet ∧
    (table.entry number).endpoint.isAllowed table.allowLocal

/-- The live entries of a bucket with an allowed endpoint. -/
def candidates (table : NodeTable) (index : Nat) : List Nat :=
  ((table.state index).filter table.isLive).filter table.isAllowed

/-- The live allowed entries of some buckets from an index on. -/
def candidatesFrom (table : NodeTable) (index count : Nat) : List Nat :=
  (List.range' index count).flatMap table.candidates

section

variable [Hashing] {table : NodeTable} {target : NodeID} {number : Nat}

/-- The entries that are found, sorted by their distance to the target. -/
def foundEntries (table : NodeTable) (target : NodeID) : List Nat :=
  (((lookedAt (distance table.id target)).flatMap fun index =>
    (table.state index).filter table.isLive).insertionSort fun one other =>
      distance target (table.entry one).id ≤
        distance target (table.entry other).id).filter table.isAllowed

theorem nearestNodeEntries_eq (table : NodeTable) (target : NodeID) :
    table.nearestNodeEntries target =
      (table.foundEntries target).take s_bucketSize := rfl

theorem foundEntries_sorted (table : NodeTable) (target : NodeID) :
    (table.foundEntries target).Pairwise fun one other =>
      distance target (table.entry one).id ≤
        distance target (table.entry other).id := by
  have total : Std.Total fun one other : Nat =>
      distance target (table.entry one).id ≤
        distance target (table.entry other).id :=
    ⟨fun _ _ => le_total _ _⟩
  have transitive : IsTrans Nat fun one other : Nat =>
      distance target (table.entry one).id ≤
        distance target (table.entry other).id :=
    ⟨fun _ _ _ => le_trans⟩
  exact (List.pairwise_insertionSort _ _).filter _

/-- They are those of the buckets that are looked at. -/
theorem foundEntries_perm (table : NodeTable) (target : NodeID) :
    (table.foundEntries target).Perm
      (table.candidatesFrom (firstLookedAt (distance table.id target))
        (255 - firstLookedAt (distance table.id target))) := by
  have looked := lookedAt_perm (distance_le table.id target)
  refine ((List.perm_insertionSort _ _).filter _).trans ?_
  rw [List.filter_flatMap]
  exact looked.flatMap_right _

omit [Hashing] in
theorem mem_candidatesFrom {index count : Nat} :
    number ∈ table.candidatesFrom index count ↔
      ∃ bucket, index ≤ bucket ∧ bucket < index + count ∧
        number ∈ table.candidates bucket := by
  simp [candidatesFrom, List.mem_range'_1, and_assoc]

omit [Hashing] in
theorem candidates_subset {index : Nat}
    (member : number ∈ table.candidates index) : number ∈ table.state index :=
  List.mem_of_mem_filter (List.mem_of_mem_filter member)

/-- A live entry is where its distance says. -/
theorem Bucketed.distance_eq (bucketed : Bucketed table) {index : Nat}
    (member : number ∈ table.candidates index) :
    distance table.id (table.entry number).id = index + 1 := by
  obtain ⟨inside, placed⟩ :=
    bucketed.placed index number (candidates_subset member)
  rw [← (bucketed.measured number inside).1, placed]

theorem Bucketed.nodup_candidatesFrom (bucketed : Bucketed table)
    (index count : Nat) : (table.candidatesFrom index count).Nodup := by
  rw [candidatesFrom, List.nodup_flatMap]
  constructor
  · intro bucket _
    exact ((bucketed.nodup bucket).filter _).filter _
  · apply List.Nodup.pairwise_of_forall_ne List.nodup_range'
    intro bucket _ other _ different number member member'
    apply different
    rw [← bucketed.bucket_eq (candidates_subset member),
      ← bucketed.bucket_eq (candidates_subset member')]

/-- Entries of the buckets below the distance of the target are no farther
from it than the own node. -/
theorem Bucketed.near (bucketed : Bucketed table) {index : Nat}
    (member : number ∈ table.candidates index)
    (below : index < distance table.id target) :
    distance target (table.entry number).id ≤ distance table.id target := by
  have placed := bucketed.distance_eq member
  rcases Nat.lt_or_eq_of_le below with nearer | same
  · exact (distance_of_lt (by omega)).le
  · exact (distance_lt_of_eq (by omega) (placed.trans same)).le

/-- The others are farther away. -/
theorem Bucketed.far (bucketed : Bucketed table) {index : Nat}
    (member : number ∈ table.candidates index)
    (above : distance table.id target ≤ index) :
    distance table.id target < distance target (table.entry number).id := by
  have placed := bucketed.distance_eq member
  have farther : distance table.id target <
      distance table.id (table.entry number).id := by omega
  rw [distance_of_gt farther]
  exact farther

omit [Hashing] in
theorem candidatesFrom_append (table : NodeTable) (index first second : Nat) :
    table.candidatesFrom index (first + second) =
      table.candidatesFrom index first ++
        table.candidatesFrom (index + first) second := by
  rw [candidatesFrom, ← List.range'_append_1, List.flatMap_append]
  rfl

omit [Hashing] in
theorem firstLookedAt_lt {head : Nat} (far : 2 ≤ head) (most : head ≤ 255) :
    firstLookedAt head < head := by
  have bins : s_bins = 255 := rfl
  unfold firstLookedAt
  rw [bins]
  split
  · omega
  · split <;> omega

/-- How many of the entries that are found are no farther than the own node
is from the target. -/
theorem Bucketed.countP_found (bucketed : Bucketed table)
    (far : 2 ≤ distance table.id target) :
    (table.foundEntries target).countP (fun number =>
        distance target (table.entry number).id ≤ distance table.id target) =
      (table.candidatesFrom (firstLookedAt (distance table.id target))
        (distance table.id target -
          firstLookedAt (distance table.id target))).length := by
  have most := distance_le table.id target
  have first := firstLookedAt_lt far most
  have parts := candidatesFrom_append table
    (firstLookedAt (distance table.id target))
    (distance table.id target - firstLookedAt (distance table.id target))
    (255 - distance table.id target)
  rw [show distance table.id target - firstLookedAt (distance table.id target) +
      (255 - distance table.id target) =
        255 - firstLookedAt (distance table.id target) by omega,
    show firstLookedAt (distance table.id target) + (distance table.id target -
      firstLookedAt (distance table.id target)) = distance table.id target by
        omega] at parts
  rw [(foundEntries_perm table target).countP_eq, parts, List.countP_append]
  have near : (table.candidatesFrom (firstLookedAt (distance table.id target))
      (distance table.id target -
        firstLookedAt (distance table.id target))).countP (fun number =>
          distance target (table.entry number).id ≤
            distance table.id target) =
      (table.candidatesFrom (firstLookedAt (distance table.id target))
        (distance table.id target -
          firstLookedAt (distance table.id target))).length := by
    rw [List.countP_eq_length]
    intro number member
    obtain ⟨index, low, high, member⟩ := mem_candidatesFrom.mp member
    exact decide_eq_true (bucketed.near member (by omega))
  have none : (table.candidatesFrom (distance table.id target)
      (255 - distance table.id target)).countP (fun number =>
        distance target (table.entry number).id ≤
          distance table.id target) = 0 := by
    rw [List.countP_eq_zero]
    intro number member
    obtain ⟨index, low, high, member⟩ := mem_candidatesFrom.mp member
    rw [decide_eq_true_eq, not_le]
    exact bucketed.far member low
  rw [near, none, Nat.add_zero]

/-- A list of the entries that are nearest to a target. -/
structure Nearest (table : NodeTable) (target : NodeID) (nearest : List Nat) :
    Prop where
  nodup : nearest.Nodup
  ordered : nearest.Pairwise fun one other =>
    distance target (table.entry one).id ≤
      distance target (table.entry other).id
  short : nearest.length ≤ s_bucketSize
  live : ∀ number ∈ nearest, number ∈ table.candidatesFrom 0 s_bins
  closest : ∀ other ∈ table.candidatesFrom 0 s_bins, other ∉ nearest →
    ∀ number ∈ nearest, distance target (table.entry number).id ≤
      distance target (table.entry other).id
  whole : nearest.length < s_bucketSize →
    ∀ other ∈ table.candidatesFrom 0 s_bins, other ∈ nearest

/-- No entry is in a bucket that is not looked at, or enough are in those
buckets below the distance of the target that are. -/
def Covered (table : NodeTable) (target : NodeID) : Prop :=
  table.candidatesFrom 0 (firstLookedAt (distance table.id target)) = [] ∨
    (2 ≤ distance table.id target ∧
      s_bucketSize ≤ (table.candidatesFrom
        (firstLookedAt (distance table.id target))
        (distance table.id target -
          firstLookedAt (distance table.id target))).length)

instance (table : NodeTable) (target : NodeID) :
    Decidable (table.Covered target) :=
  inferInstanceAs (Decidable (_ ∨ _))

theorem mem_foundEntries : number ∈ table.foundEntries target ↔
    ∃ index, firstLookedAt (distance table.id target) ≤ index ∧
      index < 255 ∧ number ∈ table.candidates index := by
  have most := distance_le table.id target
  have bins : s_bins = 255 := rfl
  have first : firstLookedAt (distance table.id target) ≤ 255 := by
    unfold firstLookedAt
    rw [bins]
    split
    · omega
    · split <;> omega
  rw [(foundEntries_perm table target).mem_iff, mem_candidatesFrom,
    Nat.add_sub_cancel' first]

/-- Where the buckets that are left out are not needed, the nearest entries
are returned. -/
theorem Bucketed.nearest_of_covered (bucketed : Bucketed table)
    (covered : table.Covered target) :
    table.Nearest target (table.nearestNodeEntries target) := by
  have sorted := foundEntries_sorted table target
  have most := distance_le table.id target
  have bins : s_bins = 255 := rfl
  rw [nearestNodeEntries_eq]
  -- an entry that is not found is as far as the own node
  have missed : ∀ other ∈ table.candidatesFrom 0 s_bins,
      other ∉ table.foundEntries target →
        distance target (table.entry other).id = distance table.id target ∧
          s_bucketSize ≤ (table.foundEntries target).countP fun number =>
            distance target (table.entry number).id ≤
              distance table.id target := by
    intro other member absent
    obtain ⟨index, -, inside, member⟩ := mem_candidatesFrom.mp member
    have early : index < firstLookedAt (distance table.id target) := by
      by_contra late
      exact absent (mem_foundEntries.mpr
        ⟨index, by omega, by omega, member⟩)
    rcases covered with none | ⟨far, enough⟩
    · have listed : other ∈ table.candidatesFrom 0
          (firstLookedAt (distance table.id target)) :=
        mem_candidatesFrom.mpr ⟨index, Nat.zero_le _, by omega, member⟩
      rw [none] at listed
      cases listed
    · have first := firstLookedAt_lt far most
      have placed := bucketed.distance_eq member
      refine ⟨distance_of_lt (by omega), ?_⟩
      rw [bucketed.countP_found far]
      exact enough
  have found : ∀ number ∈ table.foundEntries target,
      number ∈ table.candidatesFrom 0 s_bins := by
    intro number member
    obtain ⟨index, -, inside, member⟩ := mem_foundEntries.mp member
    exact mem_candidatesFrom.mpr ⟨index, Nat.zero_le _, by omega, member⟩
  refine ⟨?_, sorted.sublist (List.take_sublist ..), List.length_take_le ..,
    fun number member => found number (List.mem_of_mem_take member), ?_, ?_⟩
  · have nodup := (foundEntries_perm table target).nodup_iff.mpr
      (bucketed.nodup_candidatesFrom _ _)
    exact nodup.sublist (List.take_sublist ..)
  · intro other member left number taken
    by_cases inside : other ∈ table.foundEntries target
    · exact Selection.le_of_not_mem_take sorted taken inside left
    · obtain ⟨distant, enough⟩ := missed other member inside
      rw [distant]
      exact ((Selection.take_le_iff sorted).mpr enough).2 number taken
  · intro few other member
    rw [List.length_take] at few
    rw [List.take_of_length_le (by omega)]
    by_contra absent
    have enough := (missed other member absent).2.trans List.countP_le_length
    omega

/-- Otherwise they are not. -/
theorem Bucketed.covered_of_nearest (bucketed : Bucketed table)
    (nearest : table.Nearest target (table.nearestNodeEntries target)) :
    table.Covered target := by
  have sorted := foundEntries_sorted table target
  have most := distance_le table.id target
  have bins : s_bins = 255 := rfl
  rw [nearestNodeEntries_eq] at nearest
  by_cases none : table.candidatesFrom 0
      (firstLookedAt (distance table.id target)) = []
  · exact .inl none
  obtain ⟨other, listed⟩ := List.exists_mem_of_ne_nil _ none
  obtain ⟨index, -, early, member⟩ := mem_candidatesFrom.mp listed
  have own : distance table.id target ≠ 0 := by
    intro zero
    have start : firstLookedAt 0 = 0 := rfl
    rw [zero, start] at early
    omega
  have placed := bucketed.distance_eq member
  have whole : other ∈ table.candidatesFrom 0 s_bins := by
    refine mem_candidatesFrom.mpr ⟨index, Nat.zero_le _, ?_, member⟩
    have reached := distance_le table.id (table.entry other).id
    omega
  have absent : other ∉ table.foundEntries target := by
    intro inside
    obtain ⟨index', late, -, member'⟩ := mem_foundEntries.mp inside
    have placed' := bucketed.distance_eq member'
    omega
  have full : s_bucketSize ≤ (table.foundEntries target).length := by
    by_contra few
    have inside := nearest.whole (by rw [List.length_take]; omega) other whole
    exact absent (List.mem_of_mem_take inside)
  have enough := (Selection.take_le_iff sorted).mp ⟨full,
    nearest.closest other whole
      fun inside => absent (List.mem_of_mem_take inside)⟩
  by_cases far : 2 ≤ distance table.id target
  · have first := firstLookedAt_lt far most
    rw [distance_of_lt (show distance table.id (table.entry other).id <
        distance table.id target by omega), bucketed.countP_found far] at enough
    exact .inr ⟨far, enough⟩
  · -- next to the own node, all that is found is farther than what is not
    have one : distance table.id target = 1 := by omega
    have none : (table.foundEntries target).countP (fun number =>
        distance target (table.entry number).id ≤
          distance target (table.entry other).id) = 0 := by
      rw [List.countP_eq_zero]
      intro number inside
      obtain ⟨index', late, -, member'⟩ := mem_foundEntries.mp inside
      rw [one] at early late
      have start : firstLookedAt 1 = 1 := by decide
      have close : distance target (table.entry other).id <
          distance table.id target := distance_lt_of_eq (by omega) (by omega)
      have farther : distance table.id target <
          distance target (table.entry number).id :=
        bucketed.far member' (by omega)
      rw [decide_eq_true_eq]
      omega
    rw [none] at enough
    exact absurd enough (by decide)

/-- In every state of a table, the entries that are returned are the nearest
ones if and only if the buckets that are not looked at are empty or not
needed. -/
theorem nearestNodeEntries_iff {id : NodeID} {endpoint : NodeIPEndpoint}
    {allowLocal isOpen : Bool} {now : TimePoint}
    {moments : List (TimePoint × Input)} {table : NodeTable}
    (apart : ∀ moment ∈ moments, ∀ other ∈ moment.2.ids,
      1 ≤ distance id other)
    (ran : (construct id endpoint allowLocal isOpen now).run moments =
      some table) (target : NodeID) :
    table.Nearest target (table.nearestNodeEntries target) ↔
      table.Covered target := by
  have start := bucketed_construct id endpoint allowLocal isOpen now
  have sameId := (quiet_construct id endpoint allowLocal isOpen now).id
  have apart : ∀ moment ∈ moments, ∀ other ∈ moment.2.ids,
      1 ≤ distance (construct id endpoint allowLocal isOpen now).id other := by
    rw [sameId]
    exact apart
  have changes : Changes False (construct id endpoint allowLocal isOpen now)
      table := changes_run apart False.elim ran
  have bucketed := start.changes changes
  exact ⟨bucketed.covered_of_nearest, bucketed.nearest_of_covered⟩

end

/-! ## A target far from the own node -/

section Sample

/-- Keccak-256 of the identities of four nodes. -/
def nearestSampleHashing : Hashing where
  sha3 content := hashOfNat
    (if content = (nodeSample 1).val then
      0xa6eef7e35abe7026729641147f7915573c7e97b47efa546f5f6e3230263bcb49
    else if content = (nodeSample 2).val then
      0xac33ff75c19e70fe83507db0d683fd3465c996598dc972688b7ace676c89077b
    else if content = (nodeSample 3).val then
      0x3617319a054d772f909f7c479a2cebe5066e836a939412e32403c99029b92eff
    else 0xec8156718a8372b1db44bb411437d0870f3e3790d4a08526d024ce1b0b668f6b)
  trieRoot _ := hashOfNat 0

attribute [local instance] nearestSampleHashing

/-- The second node is added. -/
def secondNodeSample : List (TimePoint × Input) :=
  [(0, .addNode (nodeSample 2) (endpointSample 2) .known)]

theorem secondNodeSample_apart : ∀ moment ∈ secondNodeSample,
    ∀ other ∈ moment.2.ids, 1 ≤ distance (nodeSample 1) other := by
  decide +kernel

/-- The third node has the highest bit, and all buckets but the first one are
looked at. -/
theorem nearestNodeEntries_iff_sample :
    ∃ table, tableSample.run secondNodeSample = some table ∧
      table.Nearest (nodeSample 3)
        (table.nearestNodeEntries (nodeSample 3)) := by
  have covered : ((tableSample.run secondNodeSample).map fun table =>
      decide (table.Covered (nodeSample 3))) = some true := by
    decide +kernel
  obtain ⟨table, ran, covered⟩ := Option.map_eq_some_iff.mp covered
  exact ⟨table, ran, (nearestNodeEntries_iff secondNodeSample_apart ran
    (nodeSample 3)).mpr (of_decide_eq_true covered)⟩

/-- For the ninth node only the last two buckets are. -/
theorem nearest_missed_sample :
    ∃ table, tableSample.run secondNodeSample = some table ∧
      ¬table.Nearest (nodeSample 9)
        (table.nearestNodeEntries (nodeSample 9)) := by
  have missed : ((tableSample.run secondNodeSample).map fun table =>
      (table.nearestNodeEntries (nodeSample 9),
        table.candidatesFrom 0 s_bins)) = some ([], [0]) := by
    decide +kernel
  obtain ⟨table, ran, found⟩ := Option.map_eq_some_iff.mp missed
  obtain ⟨nothing, one⟩ := Prod.mk.inj found
  refine ⟨table, ran, ?_⟩
  intro nearest
  rw [nothing] at nearest
  have inside := nearest.whole (by decide) 0 (by rw [one]; simp)
  cases inside

end Sample

end NodeTable

end Aecmio
