import Mathlib.Data.List.Sort
import Mathlib.Data.List.Nodup

/-!
# Paging through two sources

Keys come from two sources, and are asked for in order, page by page.  For a
page, the first source is scanned in order until the page is full, and the
scan remembers the key that it stops at.  Then the keys of the other source
are merged in, and if there are too many now, the first that is cut off is
remembered instead.  So a key of the first source is lost when a page has keys
of that source only and the other source has just later ones.
-/

namespace Paging

variable {α : Type} [LinearOrder α]

abbrev Increasing (list : List α) : Prop := list.Pairwise (· < ·)

/-! ## Increasing lists -/

namespace Increasing

variable {list other front back : List α} {key : α}

theorem nodup (ordered : Increasing list) : list.Nodup :=
  ordered.imp fun less => ne_of_lt less

theorem ext (ordered : Increasing list) (ordered' : Increasing other)
    (same : ∀ key, key ∈ list ↔ key ∈ other) : list = other :=
  ordered.eq_of_mem_iff ordered' fun {key} => same key

theorem filter_eq (ordered : Increasing list) (ordered' : Increasing other)
    (sub : ∀ key ∈ other, key ∈ list) :
    list.filter (fun key => decide (key ∈ other)) = other := by
  apply ext (ordered.filter _) ordered'
  intro key
  rw [List.mem_filter, decide_eq_true_eq]
  exact ⟨And.right, fun member => ⟨sub key member, member⟩⟩

theorem lt_of_split (ordered : Increasing (front ++ key :: back)) :
    (∀ other ∈ front, other < key) ∧ ∀ other ∈ back, key < other := by
  obtain ⟨-, later, before⟩ := List.pairwise_append.mp ordered
  exact ⟨fun other member => before other member key List.mem_cons_self,
    (List.pairwise_cons.mp later).1⟩

/-- What is less than a key comes before it. -/
theorem mem_front (ordered : Increasing (front ++ key :: back)) {other : α}
    (member : other ∈ front ++ key :: back) (less : other < key) :
    other ∈ front := by
  rcases List.mem_append.mp member with before | later
  · exact before
  · rcases List.mem_cons.mp later with same | after
    · exact absurd less (same ▸ lt_irrefl _)
    · exact absurd less (not_lt_of_gt (ordered.lt_of_split.2 other after))

theorem eq_of_length (ordered : Increasing list) (ordered' : Increasing other)
    (sub : ∀ key ∈ list, key ∈ other) (length : other.length ≤ list.length) :
    list = other := by
  have perm := (List.subperm_of_subset ordered.nodup sub).perm_of_length_le
    length
  exact ext ordered ordered' fun key => perm.mem_iff

/-- Filtering away keys does not change the start of a list if each of them
has enough others before it. -/
theorem take_filter (ordered : Increasing list) {test : α → Bool}
    {count : Nat} (late : ∀ key ∈ list, test key = false →
      count ≤ ((list.filter test).filter (· < key)).length) :
    (list.filter test).take count = list.take count := by
  induction list generalizing count with
  | nil => rfl
  | cons key list induction =>
      obtain ⟨least, ordered⟩ := List.pairwise_cons.mp ordered
      cases count with
      | zero => rfl
      | succ count =>
          cases kept : test key with
          | true =>
              rw [List.filter_cons_of_pos kept, List.take_succ_cons,
                List.take_succ_cons]
              congr 1
              apply induction ordered
              intro other member gone
              have before := late other (List.mem_cons_of_mem _ member) gone
              simp only [List.filter_cons, kept, if_true, least other member,
                decide_true, List.length_cons] at before
              omega
          | false =>
              have none : (((key :: list).filter test).filter
                  (· < key)) = [] := by
                rw [List.filter_eq_nil_iff]
                intro other member less
                rw [decide_eq_true_eq] at less
                rcases List.mem_cons.mp (List.mem_filter.mp member).1 with
                  same | later
                · exact absurd less (same ▸ lt_irrefl _)
                · exact absurd less (not_lt_of_gt (least other later))
              have before := late key List.mem_cons_self kept
              rw [none] at before
              cases before

end Increasing

/-! ## Pages -/

/-- The keys of two sources; those of the first are scanned. -/
structure Sources (α : Type) [LinearOrder α] where
  stored : List α
  fresh : Set α
  all : List α
  stored_ordered : Increasing stored
  all_ordered : Increasing all
  mem_all : ∀ key, key ∈ all ↔ key ∈ stored ∨ key ∈ fresh

variable {sources : Sources α} {size : Nat} {start : α} {keys : List α}
  {next : Option α} {pages : List (List α)}

namespace Sources

/-- The keys from a start on. -/
def rest (sources : Sources α) (start : α) : List α :=
  sources.all.filter (start ≤ ·)

def scanned (sources : Sources α) (start : α) : List α :=
  sources.stored.filter (start ≤ ·)

theorem rest_ordered (sources : Sources α) (start : α) :
    Increasing (sources.rest start) :=
  sources.all_ordered.filter _

theorem scanned_ordered (sources : Sources α) (start : α) :
    Increasing (sources.scanned start) :=
  sources.stored_ordered.filter _

theorem mem_scanned {key : α} :
    key ∈ sources.scanned start ↔ key ∈ sources.stored ∧ start ≤ key := by
  rw [scanned, List.mem_filter, decide_eq_true_eq]

theorem mem_rest {key : α} :
    key ∈ sources.rest start ↔
      (key ∈ sources.stored ∨ key ∈ sources.fresh) ∧ start ≤ key := by
  rw [rest, List.mem_filter, decide_eq_true_eq, sources.mem_all]

theorem rest_of_scanned {key : α} (member : key ∈ sources.scanned start) :
    key ∈ sources.rest start := by
  obtain ⟨stored, later⟩ := mem_scanned.mp member
  exact mem_rest.mpr ⟨Or.inl stored, later⟩

end Sources

/-- A page from a start on, and the key that the next one starts at. -/
inductive IsPage (sources : Sources α) (size : Nat) (start : α) :
    List α → Option α → Prop where
  | mk (merged : List α) (ordered : Increasing merged)
      (members : ∀ key, key ∈ merged ↔
        key ∈ (sources.scanned start).take size ∨
          (key ∈ sources.fresh ∧ start ≤ key)) :
      IsPage sources size start (merged.take size)
        (if size < merged.length then merged[size]?
          else (sources.scanned start)[size]?)

/-- A key is skipped after the page: the page has stored keys only, the key is
stored only, and a later one is not. -/
def Skips (sources : Sources α) (page : List α) (key : α) (back : List α) :
    Prop :=
  (∀ other ∈ page, other ∈ sources.stored) ∧ key ∉ sources.fresh ∧
    ∃ other ∈ back, other ∈ sources.fresh

section Merged

variable {merged : List α} (ordered : Increasing merged)
  (members : ∀ key, key ∈ merged ↔
    key ∈ (sources.scanned start).take size ∨
      (key ∈ sources.fresh ∧ start ≤ key))

include members

theorem rest_of_merged {key : α} (member : key ∈ merged) :
    key ∈ sources.rest start := by
  rcases (members key).mp member with scanned | ⟨fresh, later⟩
  · exact Sources.rest_of_scanned (List.mem_of_mem_take scanned)
  · exact Sources.mem_rest.mpr ⟨Or.inr fresh, later⟩

/-- What is not merged comes late in the scan. -/
theorem scanned_of_missing {key : α} (member : key ∈ sources.rest start)
    (missing : key ∉ merged) :
    key ∉ sources.fresh ∧ key ∈ (sources.scanned start).drop size := by
  obtain ⟨either, later⟩ := Sources.mem_rest.mp member
  have stale : key ∉ sources.fresh := by
    intro fresh
    exact missing ((members key).mpr (Or.inr ⟨fresh, later⟩))
  have scanned : key ∈ sources.scanned start :=
    Sources.mem_scanned.mpr ⟨either.resolve_right stale, later⟩
  rw [← List.take_append_drop size (sources.scanned start)] at scanned
  rcases List.mem_append.mp scanned with early | late
  · exact absurd ((members key).mpr (Or.inl early)) missing
  · exact ⟨stale, late⟩

omit members in
theorem lt_of_drop {key other : α}
    (early : other ∈ (sources.scanned start).take size)
    (late : key ∈ (sources.scanned start).drop size) : other < key := by
  have split := sources.scanned_ordered start
  rw [← List.take_append_drop size (sources.scanned start)] at split
  exact (List.pairwise_append.mp split).2.2 other early key late

omit members in
theorem length_take_of_drop {key : α}
    (late : key ∈ (sources.scanned start).drop size) :
    ((sources.scanned start).take size).length = size := by
  have positive := List.length_pos_of_mem late
  rw [List.length_drop] at positive
  rw [List.length_take]
  omega

include ordered

theorem take_merged :
    merged.take size = (sources.rest start).take size := by
  have filtered := (sources.rest_ordered start).filter_eq ordered
    fun key member => rest_of_merged members member
  have taken := @Increasing.take_filter α _ (sources.rest start)
    (sources.rest_ordered start) (fun key => decide (key ∈ merged)) size
  rw [filtered] at taken
  apply taken
  intro key member missing
  obtain ⟨-, late⟩ := scanned_of_missing members member
    (of_decide_eq_false missing)
  rw [← length_take_of_drop late]
  have inside : ∀ other ∈ (sources.scanned start).take size,
      other ∈ merged.filter (· < key) := by
    intro other early
    rw [List.mem_filter, decide_eq_true_eq]
    exact ⟨(members other).mpr (Or.inl early), lt_of_drop early late⟩
  have nodup : ((sources.scanned start).take size).Nodup :=
    (sources.scanned_ordered start).nodup.sublist (List.take_sublist _ _)
  exact (List.subperm_of_subset nodup inside).length_le

/-- The merged keys when there are more than a page. -/
theorem merged_eq {front back : List α} {key : α}
    (split : sources.rest start = front ++ key :: back)
    (length : front.length = size) :
    merged = front ++
      (key :: back).filter fun other => decide (other ∈ merged) := by
  have filtered := (sources.rest_ordered start).filter_eq ordered
    fun key member => rest_of_merged members member
  have taken := take_merged ordered members
  rw [split, List.take_left' length] at taken
  have kept : front.filter (fun other => decide (other ∈ merged)) = front := by
    rw [List.filter_eq_self]
    intro other member
    rw [← taken] at member
    exact decide_eq_true (List.mem_of_mem_take member)
  rw [split, List.filter_append, kept] at filtered
  exact filtered.symm

/-- When the next key is not merged, the page is what the scan took, and the
scan stopped at that key. -/
theorem scanned_eq {front back : List α} {key : α}
    (split : sources.rest start = front ++ key :: back)
    (length : front.length = size) (missing : key ∉ merged) :
    key ∉ sources.fresh ∧ (sources.scanned start).take size = front ∧
      (sources.scanned start)[size]? = some key := by
  have restOrdered := sources.rest_ordered start
  have member : key ∈ sources.rest start := by
    rw [split]
    exact List.mem_append_right _ List.mem_cons_self
  obtain ⟨stale, late⟩ := scanned_of_missing members member missing
  rw [split] at restOrdered
  have same : (sources.scanned start).take size = front := by
    apply Increasing.eq_of_length
      ((sources.scanned_ordered start).sublist (List.take_sublist _ _))
      (List.pairwise_append.mp restOrdered).1
    · intro other early
      have inside := Sources.rest_of_scanned (List.mem_of_mem_take early)
      rw [split] at inside
      exact restOrdered.mem_front inside (lt_of_drop early late)
    · rw [length, length_take_of_drop late]
  refine ⟨stale, same, ?_⟩
  cases rest : (sources.scanned start).drop size with
  | nil =>
      rw [rest] at late
      cases late
  | cons first later =>
      have whole : sources.scanned start = front ++ first :: later := by
        rw [← same, ← rest, List.take_append_drop]
      have scannedOrdered := sources.scanned_ordered start
      rw [whole] at scannedOrdered
      have firstMember : first ∈ sources.rest start := by
        apply Sources.rest_of_scanned
        rw [whole]
        exact List.mem_append_right _ List.mem_cons_self
      have atFirst : first = key := by
        rw [rest] at late
        rw [split] at firstMember
        rcases List.mem_cons.mp late with here | after
        · exact here.symm
        · have less := (List.pairwise_cons.mp
            (List.pairwise_append.mp scannedOrdered).2.1).1 key after
          have early := restOrdered.mem_front firstMember less
          exact absurd (scannedOrdered.lt_of_split.1 first early)
            (lt_irrefl _)
      rw [whole, atFirst, List.getElem?_append_right (by omega), length,
        Nat.sub_self]
      rfl

end Merged

/-- A page before the last key takes all that is left. -/
theorem IsPage.short (page : IsPage sources size start keys next)
    (few : (sources.rest start).length ≤ size) :
    keys = sources.rest start ∧ next = none := by
  obtain ⟨merged, ordered, members⟩ := page
  have fewer : merged.length ≤ size :=
    (List.subperm_of_subset ordered.nodup
      fun key member => rest_of_merged members member).length_le.trans few
  have scannedFewer : (sources.scanned start).length ≤ size :=
    (List.subperm_of_subset (sources.scanned_ordered start).nodup
      fun key => Sources.rest_of_scanned).length_le.trans few
  constructor
  · rw [take_merged ordered members, List.take_of_length_le few]
  · rw [if_neg (by omega), List.getElem?_eq_none scannedFewer]

/-- A page with more to follow has the least keys, and the next one starts
right after it or skips a key. -/
theorem IsPage.full (page : IsPage sources size start keys next)
    {front back : List α} {key : α}
    (split : sources.rest start = front ++ key :: back)
    (length : front.length = size) :
    keys = front ∧ ((next = some key ∧ ¬ Skips sources front key back) ∨
      Skips sources front key back ∧ ∃ later, next = some later ∧
        key < later ∧ later ∈ back) := by
  obtain ⟨merged, ordered, members⟩ := page
  have restOrdered := sources.rest_ordered start
  rw [split] at restOrdered
  have whole := merged_eq ordered members split length
  constructor
  · rw [take_merged ordered members, split, List.take_left' length]
  by_cases present : key ∈ merged
  · left
    simp only [List.filter_cons, present, decide_true, if_true] at whole
    constructor
    · have longer : size < merged.length := by
        rw [whole, List.length_append, List.length_cons]
        omega
      rw [if_pos longer, whole, List.getElem?_append_right (by omega), length,
        Nat.sub_self]
      rfl
    · rintro ⟨stored, stale, -⟩
      have early : key ∈ (sources.scanned start).take size :=
        ((members key).mp present).resolve_right fun fresh => stale fresh.1
      have inside : ∀ other ∈ key :: front,
          other ∈ (sources.scanned start).take size := by
        intro other member
        rcases List.mem_cons.mp member with same | before
        · rw [same]
          exact early
        · have scanned : other ∈ sources.scanned start := by
            apply Sources.mem_scanned.mpr
            have held : other ∈ sources.rest start := by
              rw [split]
              exact List.mem_append_left _ before
            exact ⟨stored other before, (Sources.mem_rest.mp held).2⟩
          rw [← List.take_append_drop size (sources.scanned start)] at scanned
          rcases List.mem_append.mp scanned with taken | late
          · exact taken
          · exact absurd (lt_of_drop early late)
              (not_lt_of_gt (restOrdered.lt_of_split.1 other before))
      have nodup : (key :: front).Nodup := by
        apply List.nodup_cons.mpr
        refine ⟨?_, (List.pairwise_append.mp restOrdered).1.nodup⟩
        intro member
        exact absurd (restOrdered.lt_of_split.1 key member) (lt_irrefl _)
      have fits := (List.subperm_of_subset nodup inside).length_le
      rw [List.length_cons, List.length_take] at fits
      omega
  · obtain ⟨stale, taken, stopped⟩ :=
      scanned_eq ordered members split length present
    simp only [List.filter_cons, present, decide_false, Bool.false_eq_true,
      if_false] at whole
    have stored : ∀ other ∈ front, other ∈ sources.stored := by
      intro other member
      rw [← taken] at member
      exact (Sources.mem_scanned.mp (List.mem_of_mem_take member)).1
    cases later : back.filter fun other => decide (other ∈ merged) with
    | nil =>
        left
        rw [later, List.append_nil] at whole
        constructor
        · rw [if_neg (by rw [whole]; omega)]
          exact stopped
        · rintro ⟨-, -, other, member, fresh⟩
          have held : other ∈ sources.rest start := by
            rw [split]
            exact List.mem_append_right _ (List.mem_cons_of_mem _ member)
          have inMerged : other ∈ merged :=
            (members other).mpr (Or.inr ⟨fresh, (Sources.mem_rest.mp held).2⟩)
          exact List.filter_eq_nil_iff.mp later other member
            (decide_eq_true inMerged)
    | cons first others =>
        right
        have firstMember : first ∈ back ∧ first ∈ merged := by
          have member : first ∈ back.filter
              fun other => decide (other ∈ merged) := by
            rw [later]
            exact List.mem_cons_self
          simpa using member
        rw [later] at whole
        have after := restOrdered.lt_of_split.2 first firstMember.1
        constructor
        · refine ⟨stored, stale, first, firstMember.1, ?_⟩
          rcases (members first).mp firstMember.2 with early | fresh
          · rw [taken] at early
            exact absurd (restOrdered.lt_of_split.1 first early)
              (not_lt_of_gt after)
          · exact fresh.1
        · refine ⟨first, ?_, after, firstMember.1⟩
          have longer : size < merged.length := by
            rw [whole, List.length_append, List.length_cons]
            omega
          rw [if_pos longer, whole, List.getElem?_append_right (by omega),
            length, Nat.sub_self]
          rfl

/-- There are no more keys than a page takes, or there is a next one. -/
theorem Sources.cut (sources : Sources α) (size : Nat) (start : α) :
    (sources.rest start).length ≤ size ∨ ∃ front key back,
      sources.rest start = front ++ key :: back ∧ front.length = size := by
  by_cases few : (sources.rest start).length ≤ size
  · exact .inl few
  · right
    cases later : (sources.rest start).drop size with
    | nil =>
        rw [List.drop_eq_nil_iff] at later
        exact absurd later few
    | cons key back =>
        refine ⟨(sources.rest start).take size, key, back, ?_, ?_⟩
        · rw [← later, List.take_append_drop]
        · rw [List.length_take]
          omega

theorem Sources.rest_of_split {front back : List α} {key : α}
    (split : sources.rest start = front ++ key :: back) :
    sources.rest key = key :: back := by
  have ordered := sources.rest_ordered start
  rw [split] at ordered
  apply Increasing.ext (sources.rest_ordered key)
    (List.pairwise_append.mp ordered).2.1
  have member : key ∈ sources.rest start := by
    rw [split]
    exact List.mem_append_right _ List.mem_cons_self
  intro other
  constructor
  · intro later
    obtain ⟨either, after⟩ := Sources.mem_rest.mp later
    have inside : other ∈ sources.rest start :=
      Sources.mem_rest.mpr
        ⟨either, (Sources.mem_rest.mp member).2.trans after⟩
    rw [split] at inside
    rcases List.mem_append.mp inside with before | here
    · exact absurd (ordered.lt_of_split.1 other before) (not_lt_of_ge after)
    · exact here
  · intro later
    have inside : other ∈ sources.rest start := by
      rw [split]
      exact List.mem_append_right _ later
    refine Sources.mem_rest.mpr ⟨(Sources.mem_rest.mp inside).1, ?_⟩
    rcases List.mem_cons.mp later with same | after
    · exact same.ge
    · exact (ordered.lt_of_split.2 other after).le

theorem IsPage.subset (page : IsPage sources size start keys next) :
    ∀ key ∈ keys, key ∈ sources.rest start := by
  obtain ⟨merged, ordered, members⟩ := page
  intro key member
  exact rest_of_merged members (List.mem_of_mem_take member)

theorem IsPage.length_le (page : IsPage sources size start keys next) :
    keys.length ≤ size := by
  obtain ⟨merged, -, -⟩ := page
  exact List.length_take_le _ _

/-- The next page starts further on. -/
theorem IsPage.next_rest {later : α} (positive : 0 < size)
    (page : IsPage sources size start keys (some later)) :
    later ∈ sources.rest start ∧ start < later ∧
      (sources.rest later).length < (sources.rest start).length := by
  rcases sources.cut size start with few | ⟨front, key, back, split, length⟩
  · cases (page.short few).2
  · have ordered := sources.rest_ordered start
    have place : later = key ∨ key < later ∧ later ∈ back := by
      rcases (page.full split length).2 with ⟨same, -⟩ |
        ⟨-, other, same, after, inside⟩
      · exact .inl (Option.some.inj same)
      · cases same
        exact .inr ⟨after, inside⟩
    have member : later ∈ sources.rest start := by
      rw [split]
      apply List.mem_append_right
      rcases place with same | ⟨-, inside⟩
      · rw [same]
        exact List.mem_cons_self
      · exact List.mem_cons_of_mem _ inside
    cases front with
    | nil =>
        rw [List.length_nil] at length
        omega
    | cons first front =>
        rw [split] at ordered
        have firstMember : first ∈ sources.rest start := by
          rw [split]
          exact List.mem_cons_self
        have firstLess : first < later := by
          have before := ordered.lt_of_split.1 first List.mem_cons_self
          rcases place with same | ⟨after, -⟩
          · rw [same]
            exact before
          · exact before.trans after
        have startLess :=
          lt_of_le_of_lt (Sources.mem_rest.mp firstMember).2 firstLess
        refine ⟨member, startLess, ?_⟩
        have inside : ∀ other ∈ first :: sources.rest later,
            other ∈ sources.rest start := by
          intro other either
          rcases List.mem_cons.mp either with same | after
          · rw [same]
            exact firstMember
          · obtain ⟨source, above⟩ := Sources.mem_rest.mp after
            exact Sources.mem_rest.mpr ⟨source, startLess.le.trans above⟩
        have nodup : (first :: sources.rest later).Nodup := by
          apply List.nodup_cons.mpr
          refine ⟨?_, (sources.rest_ordered later).nodup⟩
          intro after
          exact absurd (Sources.mem_rest.mp after).2 (not_le_of_gt firstLess)
        exact (List.subperm_of_subset nodup inside).length_le

/-! ## Runs of pages -/

/-- Pages are asked for until there is no next one. -/
inductive Pages (sources : Sources α) (size : Nat) :
    α → List (List α) → Prop where
  | last {start : α} {keys : List α}
      (page : IsPage sources size start keys none) :
      Pages sources size start [keys]
  | more {start next : α} {keys : List α} {pages : List (List α)}
      (page : IsPage sources size start keys (some next))
      (later : Pages sources size next pages) :
      Pages sources size start (keys :: pages)

/-- No key is skipped when the list is cut into pages. -/
def Unbroken (sources : Sources α) (size : Nat) (list : List α) : Prop :=
  ∀ front page key back, list = front ++ page ++ key :: back →
    size ∣ front.length → page.length = size →
    ¬ Skips sources page key back

theorem unbroken_of_short {list : List α} (few : list.length ≤ size) :
    Unbroken sources size list := by
  intro front page key back split _ length
  rw [split] at few
  simp only [List.length_append, List.length_cons] at few
  omega

/-- The first page, and those after it. -/
theorem unbroken_append {front back : List α} {key : α}
    (length : front.length = size) :
    Unbroken sources size (front ++ key :: back) ↔
      ¬ Skips sources front key back ∧
        Unbroken sources size (key :: back) := by
  constructor
  · intro unbroken
    constructor
    · exact unbroken [] front key back rfl (Nat.dvd_zero _) length
    · intro front' page key' back' split divides length'
      apply unbroken (front ++ front') page key' back'
      · rw [split, List.append_assoc, List.append_assoc, List.append_assoc]
      · rw [List.length_append, length]
        exact (Nat.dvd_add_right (Nat.dvd_refl size)).mpr divides
      · exact length'
  · rintro ⟨holds, unbroken⟩ front' page key' back' split divides length'
    by_cases first : front' = []
    · subst first
      rw [List.nil_append] at split
      obtain ⟨same, rest⟩ :=
        List.append_inj split (length.trans length'.symm)
      cases rest
      rw [← same]
      exact holds
    · have long : size ≤ front'.length :=
        Nat.le_of_dvd (List.length_pos_iff.mpr first) divides
      rw [List.append_assoc] at split
      obtain ⟨middle, rfl, rest⟩ : ∃ middle, front' = front ++ middle ∧
          key :: back = middle ++ (page ++ key' :: back') := by
        rcases List.append_eq_append_iff.mp split with
          ⟨middle, same, rest⟩ | ⟨middle, same, rest⟩
        · exact ⟨middle, same, rest⟩
        · have empty : middle = [] := by
            apply List.length_eq_zero_iff.mp
            rw [same, List.length_append] at length
            omega
          rw [empty, List.append_nil] at same
          rw [empty, List.nil_append] at rest
          refine ⟨[], ?_, rest.symm⟩
          rw [same, List.append_nil]
      apply unbroken middle page key' back'
      · rw [rest, List.append_assoc]
      · rw [List.length_append, length] at divides
        exact (Nat.dvd_add_right (Nat.dvd_refl size)).mp divides
      · exact length'

namespace Pages

theorem le_of_mem_flatten (result : Pages sources size start pages)
    (positive : 0 < size) : ∀ key ∈ pages.flatten, start ≤ key := by
  induction result with
  | last page =>
      intro key member
      rw [List.flatten_singleton] at member
      exact (Sources.mem_rest.mp (page.subset key member)).2
  | more page later induction =>
      intro key member
      rw [List.flatten_cons] at member
      rcases List.mem_append.mp member with here | after
      · exact (Sources.mem_rest.mp (page.subset key here)).2
      · exact (page.next_rest positive).2.1.le.trans (induction key after)

theorem ne_nil (result : Pages sources size start pages) : pages ≠ [] := by
  cases result with
  | last page => exact List.cons_ne_nil _ _
  | more page later => exact List.cons_ne_nil _ _

/-- All pages but the last one are full. -/
theorem lengths (result : Pages sources size start pages) :
    (∀ page ∈ pages.dropLast, page.length = size) ∧
      ∀ page ∈ pages, page.length ≤ size := by
  induction result with
  | @last start keys page =>
      refine ⟨nofun, ?_⟩
      intro other member
      rw [List.mem_singleton.mp member]
      exact page.length_le
  | @more start next keys pages page later induction =>
      have full : keys.length = size := by
        rcases sources.cut size start with few |
          ⟨front, key, back, split, length⟩
        · cases (page.short few).2
        · rw [(page.full split length).1, length]
      constructor
      · intro other member
        rw [List.dropLast_cons_of_ne_nil later.ne_nil] at member
        rcases List.mem_cons.mp member with same | after
        · rw [same]
          exact full
        · exact induction.1 other after
      · intro other member
        rcases List.mem_cons.mp member with same | after
        · rw [same, full]
        · exact induction.2 other after

/-- The pages have all keys in order if and only if no key is skipped. -/
theorem flatten_eq_iff (result : Pages sources size start pages)
    (positive : 0 < size) :
    pages.flatten = sources.rest start ↔
      Unbroken sources size (sources.rest start) := by
  induction result with
  | @last start keys page =>
      rw [List.flatten_singleton]
      rcases sources.cut size start with few |
        ⟨front, key, back, split, length⟩
      · exact ⟨fun _ => unbroken_of_short few, fun _ => (page.short few).1⟩
      · rcases (page.full split length).2 with ⟨none, -⟩ | ⟨-, _, none, -⟩
        · cases none
        · cases none
  | @more start next keys pages page later induction =>
      rcases sources.cut size start with few |
        ⟨front, key, back, split, length⟩
      · cases (page.short few).2
      obtain ⟨same, place⟩ := page.full split length
      rw [List.flatten_cons, same, split, unbroken_append length]
      rcases place with ⟨here, holds⟩ | ⟨skips, other, here, after, -⟩
      · cases here
        rw [Sources.rest_of_split split] at induction
        rw [List.append_cancel_left_eq, induction]
        exact ⟨fun unbroken => ⟨holds, unbroken⟩, And.right⟩
      · cases here
        constructor
        · intro equal
          have lost : key ∈ pages.flatten := by
            rw [List.append_cancel_left_eq] at equal
            rw [equal]
            exact List.mem_cons_self
          exact absurd (later.le_of_mem_flatten positive key lost)
            (not_le_of_gt after)
        · rintro ⟨holds, -⟩
          exact absurd skips holds

end Pages

end Paging
