import Aecmio.Trie.NodeCode
import Aecmio.Trie.TrieHash

/-!
# The one-shot builder writes the canonical trie

A segment of the sorted map is described by what follows a prefix that all
its keys share.  Whatever canonical trie holds exactly these entries, the
builder writes its encoding.
-/

namespace Aecmio

open Item Node Patricia Patricia.Trie

/-- An entry under a prefix. -/
def prepend (pre : List Nibble) (entry : HexEntry) : HexEntry :=
  (pre ++ entry.1, entry.2)

/-- Sorted by key, without repetition. -/
def Sorted (entries : List HexEntry) : Prop :=
  entries.Pairwise fun entry other => entry.1 < other.1

/-- The entries are exactly those of the trie, in order. -/
structure Lists (entries : List HexEntry) (node : Node) : Prop where
  sorted : Sorted entries
  mem : ∀ key bytes, (key, bytes) ∈ entries ↔
    ∃ value, node.get key = some value ∧ value.val = bytes

/-! ## Shared prefixes -/

theorem shared_le (left right : List Nibble) :
    shared left right ≤ min left.length right.length := by
  induction left generalizing right with
  | nil => simp
  | cons digit left induction =>
      cases right with
      | nil => simp
      | cons other right =>
          have inner := induction right
          by_cases same : digit = other
          · simp [shared, same]
            omega
          · simp [shared, same]

theorem sharedFrom_eq (pre left right : List Nibble) {rounds : Nat}
    (inside : rounds ≤ min left.length right.length) :
    sharedFrom (pre ++ left) (pre ++ right) rounds pre.length =
      pre.length + min rounds (shared left right) := by
  induction rounds generalizing pre left right with
  | zero => simp [sharedFrom]
  | succ rounds induction =>
      obtain ⟨digit, left, rfl⟩ :=
        List.exists_cons_of_length_pos (show 0 < left.length by omega)
      obtain ⟨other, right, rfl⟩ :=
        List.exists_cons_of_length_pos (show 0 < right.length by omega)
      have here : (pre ++ digit :: left).getD pre.length 0 = digit := by simp
      have there : (pre ++ other :: right).getD pre.length 0 = other := by simp
      rw [sharedFrom, here, there]
      by_cases same : digit = other
      · subst same
        have rest := induction (pre ++ [digit]) left right (by
          simp only [List.length_cons] at inside
          omega)
        simp only [List.append_assoc, List.singleton_append,
          List.length_append, List.length_singleton] at rest
        simp only [if_true, rest, shared]
        omega
      · simp [same, shared]

/-- One round of the loop over the other entries. -/
theorem sharedPre_step (pre left right : List Nibble) {bound : Nat}
    (known : pre.length ≤ bound) :
    (if bound = 0 then bound
      else
        min (sharedFrom (pre ++ left) (pre ++ right)
          (min bound (min (pre ++ left).length (pre ++ right).length) -
            pre.length) pre.length) bound) =
      min bound (pre.length + shared left right) := by
  have limit := shared_le left right
  by_cases zero : bound = 0
  · simp [zero]
  · rw [if_neg zero, sharedFrom_eq pre left right (by
      simp only [List.length_append]
      omega)]
    simp only [List.length_append]
    omega

theorem sharedPre_eq (pre left : List Nibble) (others : List HexEntry)
    (known : pre.length ≤ 2 ^ 32 - 1) :
    sharedPre (pre ++ left) pre.length (others.map (prepend pre)) =
      others.foldl
        (fun bound other => min bound (pre.length + shared left other.1))
        (2 ^ 32 - 1) := by
  unfold sharedPre
  generalize (2 ^ 32 - 1 : Nat) = bound at known
  induction others generalizing bound with
  | nil => rfl
  | cons other others induction =>
      have step := sharedPre_step pre left other.1 known
      simp only [List.map_cons, List.foldl_cons, prepend]
      rw [step]
      exact induction (min bound (pre.length + shared left other.1)) (by omega)

/-- The least of the shared lengths. -/
theorem foldl_min_eq {others : List HexEntry} {left : List Nibble}
    {base bound least : Nat} (above : ∀ other ∈ others,
      least ≤ base + shared left other.1) (start : least ≤ bound)
    (reached : bound = least ∨
      ∃ other ∈ others, base + shared left other.1 = least) :
    others.foldl (fun bound other => min bound (base + shared left other.1))
      bound = least := by
  induction others generalizing bound with
  | nil => simpa using reached
  | cons other others induction =>
      have first := above other (by simp)
      rw [List.foldl_cons]
      refine induction (fun next member => above next (by simp [member]))
        (by omega) ?_
      rcases reached with reached | ⟨next, member, reached⟩
      · exact .inl (by omega)
      · rcases List.mem_cons.mp member with same | later
        · exact .inl (by rw [same] at reached; omega)
        · exact .inr ⟨next, later, reached⟩

theorem sharedPre_of_least {pre left : List Nibble} {others : List HexEntry}
    {count : Nat} (above : ∀ other ∈ others, count ≤ shared left other.1)
    (reached : ∃ other ∈ others, shared left other.1 = count)
    (small : pre.length + count ≤ 2 ^ 32 - 1) :
    sharedPre (pre ++ left) pre.length (others.map (prepend pre)) =
      pre.length + count := by
  rw [sharedPre_eq pre left others (by omega)]
  refine foldl_min_eq (fun other member => ?_) small (.inr ?_)
  · have bound := above other member
    omega
  · obtain ⟨other, member, same⟩ := reached
    exact ⟨other, member, by rw [same]⟩

/-! ## Segments of a trie -/

theorem cons_lt_cons_self (digit : Nibble) (left right : List Nibble) :
    digit :: left < digit :: right ↔ left < right := by
  rw [List.cons_lt_cons_iff]
  simp

theorem append_lt_append (pre left right : List Nibble) :
    pre ++ left < pre ++ right ↔ left < right := by
  induction pre with
  | nil => rfl
  | cons digit pre induction =>
      rw [List.cons_append, List.cons_append, cons_lt_cons_self, induction]

namespace Lists

variable {entries : List HexEntry} {node : Node}

theorem eq_nil (lists : Lists entries .null) : entries = [] := by
  rw [List.eq_nil_iff_forall_not_mem]
  rintro ⟨key, bytes⟩ member
  obtain ⟨value, found, _⟩ := (lists.mem key bytes).mp member
  simp at found

theorem ne_nil (lists : Lists entries node) (canonical : node.Canonical)
    (nonempty : node ≠ .null) : entries ≠ [] := by
  obtain ⟨path, value, found⟩ := canonical.exists_get nonempty
  have member := (lists.mem path value.val).mpr ⟨value, found, rfl⟩
  intro none
  rw [none] at member
  simp at member

theorem eq_singleton {key : List Nibble} {value : TrieValue}
    (lists : Lists entries (.leaf key value)) :
    entries = [(key, value.val)] := by
  have only : ∀ entry ∈ entries, entry = (key, value.val) := by
    rintro ⟨other, bytes⟩ member
    obtain ⟨found, held, rfl⟩ := (lists.mem other bytes).mp member
    rw [get_leaf] at held
    by_cases same : key = other
    · rw [if_pos same] at held
      rw [same, Option.some.inj held]
    · rw [if_neg same] at held
      cases held
  have member := (lists.mem key value.val).mpr ⟨value, by simp, rfl⟩
  have sorted := lists.sorted
  cases entries with
  | nil => simp at member
  | cons entry rest =>
      cases rest with
      | nil => rw [only entry (by simp)]
      | cons other rest =>
          have less : entry.1 < other.1 :=
            (List.pairwise_cons.mp sorted).1 other (by simp)
          rw [only entry (by simp), only other (by simp)] at less
          exact absurd less (lt_irrefl key)

/-- The entries below an extension. -/
theorem below_ext {key : List Nibble} {child : Node}
    (lists : Lists entries (.ext key child)) :
    ∃ below, entries = below.map (prepend key) ∧ Lists below child := by
  have inside : ∀ entry ∈ entries, key <+: entry.1 := by
    rintro ⟨path, bytes⟩ member
    obtain ⟨value, found, _⟩ := (lists.mem path bytes).mp member
    by_contra outside
    rw [get_ext_off child outside] at found
    cases found
  have restored : entries = (entries.map fun entry =>
      (entry.1.drop key.length, entry.2)).map (prepend key) := by
    rw [List.map_map]
    conv_lhs => rw [← List.map_id entries]
    apply List.map_congr_left
    intro entry member
    obtain ⟨rest, split⟩ := inside entry member
    refine Prod.ext ?_ rfl
    change entry.1 = key ++ entry.1.drop key.length
    rw [← split, List.drop_left]
  refine ⟨_, restored, ⟨?_, ?_⟩⟩
  · have sorted := lists.sorted
    rw [restored] at sorted
    refine (List.pairwise_map.mp sorted).imp ?_
    intro entry other less
    exact (append_lt_append key entry.1 other.1).mp less
  · intro path bytes
    have whole := lists.mem (key ++ path) bytes
    rw [get_ext_append] at whole
    rw [← whole]
    constructor
    · intro member
      obtain ⟨entry, listed, same⟩ := List.mem_map.mp member
      obtain ⟨rest, split⟩ := inside entry listed
      have equal : entry = (key ++ path, bytes) := by
        have first : entry.1.drop key.length = path := congrArg Prod.fst same
        have second : entry.2 = bytes := congrArg Prod.snd same
        rw [← split, List.drop_left] at first
        rw [← first, split, ← second]
      rw [← equal]
      exact listed
    · intro member
      refine List.mem_map.mpr ⟨_, member, ?_⟩
      simp

/-- A branch holds entries that part from any one of them at once. -/
theorem exists_parting {children : Nibble → Node} {value : Option TrieValue}
    (lists : Lists entries (.branch children value))
    (canonical : (Trie.branch children value).Canonical)
    (first : List Nibble) :
    ∃ other ∈ entries, other.1 ≠ first ∧ shared first other.1 = 0 := by
  have child : ∀ digit, children digit ≠ .null →
      ∃ path bytes, (digit :: path, bytes) ∈ entries := by
    intro digit used
    obtain ⟨path, held, found⟩ := (canonical.1 digit).exists_get used
    exact ⟨path, held.val, (lists.mem _ _).mpr ⟨held, by simpa using found,
      rfl⟩⟩
  rcases canonical.2 with ⟨one, two, different, used, used'⟩ |
    ⟨present, one, used⟩
  · obtain ⟨path, bytes, member⟩ := child one used
    obtain ⟨path', bytes', member'⟩ := child two used'
    cases first with
    | nil => exact ⟨_, member, by simp, by simp⟩
    | cons digit rest =>
        by_cases same : digit = one
        · subst same
          exact ⟨_, member', by simp [Ne.symm different],
            by simp [shared, different]⟩
        · exact ⟨_, member, by simp [Ne.symm same], by simp [shared, same]⟩
  · obtain ⟨path, bytes, member⟩ := child one used
    cases first with
    | nil => exact ⟨_, member, by simp, by simp⟩
    | cons digit rest =>
        obtain ⟨held, rfl⟩ := Option.ne_none_iff_exists'.mp present
        refine ⟨([], held.val), (lists.mem _ _).mpr ⟨held, by simp, rfl⟩,
          by simp, by simp⟩

/-- The entries whose key goes on with a digit that passes a test. -/
def startingWith (test : Nibble → Bool) (entry : HexEntry) : Bool :=
  match entry.1 with
  | [] => false
  | digit :: _ => test digit

/-- The entries below one child of a branch. -/
theorem below_child {children : Nibble → Node} {value : Option TrieValue}
    (lists : Lists entries (.branch children value)) (digit : Nibble) :
    ∃ below, entries.filter (startingWith (· == digit)) =
        below.map (prepend [digit]) ∧ Lists below (children digit) := by
  have inside : ∀ entry ∈ entries.filter (startingWith (· == digit)),
      ∃ rest, entry.1 = digit :: rest := by
    rintro ⟨path, bytes⟩ member
    have test := (List.mem_filter.mp member).2
    cases path with
    | nil => simp [startingWith] at test
    | cons other rest =>
        have same : other = digit := by simpa [startingWith] using test
        exact ⟨rest, by rw [same]⟩
  have restored : entries.filter (startingWith (· == digit)) =
      ((entries.filter (startingWith (· == digit))).map fun entry =>
        (entry.1.tail, entry.2)).map (prepend [digit]) := by
    rw [List.map_map]
    conv_lhs => rw [← List.map_id (entries.filter _)]
    apply List.map_congr_left
    intro entry member
    obtain ⟨rest, split⟩ := inside entry member
    refine Prod.ext ?_ rfl
    change entry.1 = [digit] ++ entry.1.tail
    rw [split]
    rfl
  refine ⟨_, restored, ⟨?_, ?_⟩⟩
  · have sorted : Sorted (entries.filter (startingWith (· == digit))) :=
      List.Pairwise.filter _ lists.sorted
    rw [restored] at sorted
    refine (List.pairwise_map.mp sorted).imp ?_
    intro entry other less
    exact (cons_lt_cons_self digit entry.1 other.1).mp less
  · intro path bytes
    have whole := lists.mem (digit :: path) bytes
    rw [get_branch_cons] at whole
    rw [← whole]
    constructor
    · intro member
      obtain ⟨entry, listed, same⟩ := List.mem_map.mp member
      obtain ⟨rest, split⟩ := inside entry listed
      have equal : entry = (digit :: path, bytes) := by
        have first : entry.1.tail = path := congrArg Prod.fst same
        have second : entry.2 = bytes := congrArg Prod.snd same
        rw [split, List.tail_cons] at first
        rw [← first, ← split, ← second]
      rw [← equal]
      exact (List.mem_filter.mp listed).1
    · intro member
      refine List.mem_map.mpr ⟨(digit :: path, bytes),
        List.mem_filter.mpr ⟨member, by simp [startingWith]⟩, rfl⟩

/-- The value of a branch is its first entry. -/
theorem split_branch {children : Nibble → Node} {value : Option TrieValue}
    {entry : HexEntry} {others : List HexEntry}
    (lists : Lists (entry :: others) (.branch children value)) :
    (entry.1 = [] → value.map Subtype.val = some entry.2 ∧
      others = (entry :: others).filter (startingWith fun _ => true)) ∧
    (entry.1 ≠ [] → value = none ∧
      entry :: others =
        (entry :: others).filter (startingWith fun _ => true)) := by
  obtain ⟨less, _⟩ := List.pairwise_cons.mp lists.sorted
  have later : ∀ other ∈ others, startingWith (fun _ => true) other = true := by
    intro other member
    have order := less other member
    cases path : other.1 with
    | nil =>
        rw [path] at order
        exact absurd order (List.not_lt_nil _)
    | cons digit rest => simp [startingWith, path]
  have kept : others.filter (startingWith fun _ => true) = others :=
    List.filter_eq_self.mpr later
  refine ⟨?_, ?_⟩
  · intro empty
    obtain ⟨held, found, same⟩ := (lists.mem [] entry.2).mp (by
      rw [← empty]
      simp)
    have here : startingWith (fun _ => true) entry = false := by
      simp [startingWith, empty]
    rw [get_branch_nil] at found
    rw [List.filter_cons_of_neg (by rw [here]; exact Bool.false_ne_true),
      kept, found, ← same]
    exact ⟨rfl, rfl⟩
  · intro nonempty
    have here : startingWith (fun _ => true) entry = true := by
      obtain ⟨digit, rest, split⟩ := List.exists_cons_of_ne_nil nonempty
      simp [startingWith, split]
    refine ⟨?_, by rw [List.filter_cons_of_pos here, kept]⟩
    cases value with
    | none => rfl
    | some held =>
        have member : ([], held.val) ∈ entry :: others :=
          (lists.mem _ _).mpr ⟨held, rfl, rfl⟩
        rcases List.mem_cons.mp member with same | member
        · exact absurd (by rw [← same]) nonempty
        · have test := later _ member
          simp [startingWith] at test

end Lists

/-- Where a test holds for a first part only, `takeWhile` is a filter. -/
theorem takeWhile_eq_filter {α : Type} {test : α → Bool} {items : List α}
    (closed : items.Pairwise fun item later => test later → test item) :
    items.takeWhile test = items.filter test ∧
      items.dropWhile test = items.filter fun item => !test item := by
  induction items with
  | nil => simp
  | cons item items induction =>
      obtain ⟨before, rest⟩ := List.pairwise_cons.mp closed
      cases here : test item with
      | true => simp [here, induction rest]
      | false =>
          have none : ∀ later ∈ items, test later = false := by
            intro later member
            cases there : test later with
            | false => rfl
            | true =>
                have contradiction := before later member there
                rw [here] at contradiction
                cases contradiction
          have filtered : items.filter test = [] := by
            rw [List.filter_eq_nil_iff]
            intro later member
            rw [none later member]
            exact Bool.false_ne_true
          have kept : items.filter (fun item => !test item) = items := by
            rw [List.filter_eq_self]
            intro later member
            rw [none later member]
            rfl
          simp [here, filtered, kept]

/-! ## The loop over the slots -/

section Slots

variable {entries : List HexEntry}

open Lists (startingWith)

theorem continuesWith_prepend (pre : List Nibble) (slot : Nat)
    (entry : HexEntry) :
    continuesWith pre.length slot (prepend pre entry) =
      startingWith (fun digit => digit.val == slot) entry := by
  cases path : entry.1 with
  | nil => simp [continuesWith, prepend, startingWith, path]
  | cons digit rest =>
      rw [Bool.eq_iff_iff]
      simp [continuesWith, prepend, startingWith, path]

/-- The entries of the slots from `slot` on. -/
def fromSlot (slot : Nat) (entries : List HexEntry) : List HexEntry :=
  entries.filter (startingWith fun digit => decide (slot ≤ digit.val))

/-- The entries of one slot come before those of the later slots. -/
theorem split_fromSlot (sorted : Sorted entries) (pre : List Nibble)
    (slot : Nat) :
    ((fromSlot slot entries).map (prepend pre)).takeWhile
        (continuesWith pre.length slot) =
      (entries.filter (startingWith fun digit => digit.val == slot)).map
        (prepend pre) ∧
    ((fromSlot slot entries).map (prepend pre)).dropWhile
        (continuesWith pre.length slot) =
      (fromSlot (slot + 1) entries).map (prepend pre) := by
  have test : continuesWith pre.length slot ∘ prepend pre =
      startingWith fun digit => digit.val == slot := by
    funext entry
    exact continuesWith_prepend pre slot entry
  have closed : (fromSlot slot entries).Pairwise fun entry later =>
      startingWith (fun digit => digit.val == slot) later →
        startingWith (fun digit => digit.val == slot) entry := by
    have ordered : (fromSlot slot entries).Pairwise fun entry later =>
        entry.1 < later.1 := List.Pairwise.filter _ sorted
    refine ordered.imp_of_mem ?_
    intro entry later member _ less here
    have above := (List.mem_filter.mp member).2
    cases path : later.1 with
    | nil => simp [startingWith, path] at here
    | cons other rest' =>
        cases path' : entry.1 with
        | nil => simp [startingWith, path'] at above
        | cons digit rest =>
            rw [path, path', List.cons_lt_cons_iff] at less
            simp only [startingWith, path, path', beq_iff_eq,
              decide_eq_true_eq] at here above ⊢
            rcases less with less | ⟨same, _⟩
            · have order : digit.val < other.val := less
              omega
            · rw [same, here]
  obtain ⟨taken, dropped⟩ := takeWhile_eq_filter closed
  rw [List.takeWhile_map, List.dropWhile_map, test, taken, dropped]
  constructor
  · rw [fromSlot, List.filter_filter]
    congr 2
    funext entry
    cases path : entry.1 with
    | nil => simp [startingWith, path]
    | cons digit rest =>
        simp only [startingWith, path]
        rw [Bool.eq_iff_iff]
        simp
        omega
  · rw [fromSlot, fromSlot, List.filter_filter]
    congr 2
    funext entry
    cases path : entry.1 with
    | nil => simp [startingWith, path]
    | cons digit rest =>
        simp only [startingWith, path]
        rw [Bool.eq_iff_iff]
        simp
        omega

end Slots

/-- A loop over a range whose every round is known. -/
theorem foldlM_range_eq {ε β : Type} {step : β → Nat → Except ε β}
    (state : Nat → β) {count : Nat}
    (each : ∀ slot < count, step (state slot) slot = .ok (state (slot + 1))) :
    (List.range count).foldlM step (state 0) = .ok (state count) := by
  induction count with
  | zero => rfl
  | succ count induction =>
      have before := induction fun slot inside => each slot (by omega)
      have last := each count (by omega)
      rw [List.range_succ, List.foldlM_append, before]
      simp [bind, Except.bind, last, pure, Except.pure]

/-! ## The builder -/

section Builder

variable {sha3 : Bytes → H256}

theorem hash256aux_eq
    {inner : List HexEntry → Nat → RLPStream → Except RLPError RLPStream}
    {segment : List HexEntry} {preLen total : Nat} {done : List Item}
    {node : Node}
    (built : inner segment preLen {} = .ok ⟨enc sha3 node, []⟩)
    (missing : done.length < total)
    (small : (encodeAll (done ++ [ref sha3 node])).length < sizeTRange) :
    hash256aux sha3 inner segment preLen (building total done) =
      .ok (building total (done ++ [ref sha3 node])) := by
  have text : (⟨enc sha3 node, []⟩ : RLPStream).result =
      .ok (enc sha3 node) := rfl
  simp only [hash256aux, built, bind, Except.bind, text]
  by_cases inline : (enc sha3 node).length < 32
  · rw [if_pos inline, ref_inline sha3 inline]
    rw [ref_inline sha3 inline] at small
    exact appendRaw_building missing small
  · rw [if_neg inline, ref_hashed sha3 inline]
    rw [ref_hashed sha3 inline] at small
    exact append_building missing small

theorem appendList_building {total : Nat} (positive : 0 < total) :
    RLPStream.appendList total {} = .ok (building total []) :=
  ofCount_building positive

/-- The two appends of a pair. -/
theorem append_pair {key : List Nibble} {leaf : Bool} {second : Item}
    (small : SmallPair key leaf second) :
    (building 2 []).append (hexPrefix key leaf) =
        .ok (building 2 [.data (hexPrefix key leaf)]) ∧
      (encodeAll ([.data (hexPrefix key leaf)] ++ [second])).length <
        sizeTRange := by
  refine ⟨append_building (by simp) (small_first small), ?_⟩
  exact sizeTRange_of_readLimit small

/-- The first two entries below an extension or in a branch. -/
theorem Lists.exists_two {entries : List HexEntry}
    {children : Nibble → Node} {value : Option TrieValue}
    (lists : Lists entries (.branch children value))
    (canonical : (Trie.branch children value).Canonical) :
    ∃ first second others, entries = first :: second :: others ∧
      ∃ other ∈ second :: others, shared first.1 other.1 = 0 := by
  match entries, lists with
  | [], lists =>
      obtain ⟨other, member, _⟩ := lists.exists_parting canonical []
      simp at member
  | [entry], lists =>
      obtain ⟨other, member, different, _⟩ :=
        lists.exists_parting canonical entry.1
      rw [List.mem_singleton.mp member] at different
      exact absurd rfl different
  | first :: second :: others, lists =>
      obtain ⟨other, member, different, parted⟩ :=
        lists.exists_parting canonical first.1
      rcases List.mem_cons.mp member with same | member
      · rw [same] at different
        exact absurd rfl different
      · exact ⟨first, second, others, rfl, other, member, parted⟩

theorem hash256rlp_ext {key : List Nibble} {child : Node}
    {entries : List HexEntry} {pre : List Nibble} {fuel : Nat}
    (canonical : (Trie.ext key child).Canonical)
    (short : Node.Short (.ext key child))
    (lists : Lists entries (.ext key child))
    (fits : ∀ entry ∈ entries, pre.length + entry.1.length ≤ 2 ^ 32 - 1)
    (below : ∀ inner, entries = inner.map (prepend key) →
      Lists inner child →
      hash256rlp sha3 fuel (inner.map (prepend (pre ++ key)))
        (pre ++ key).length {} = .ok ⟨enc sha3 child, []⟩) :
    hash256rlp sha3 (fuel + 1) (entries.map (prepend pre)) pre.length {} =
      .ok ⟨enc sha3 (.ext key child), []⟩ := by
  obtain ⟨nonempty, branch, inner⟩ := canonical
  obtain ⟨rest, rfl, listed⟩ := lists.below_ext
  have built := below rest rfl listed
  cases child with
  | null => exact absurd branch (by simp [IsBranch])
  | leaf key value => exact absurd branch (by simp [IsBranch])
  | ext key child => exact absurd branch (by simp [IsBranch])
  | branch children value =>
      obtain ⟨first, second, others, rfl, other, member, parted⟩ :=
        listed.exists_two inner
      have joined : ∀ entries : List HexEntry,
          (entries.map (prepend key)).map (prepend pre) =
            entries.map (prepend (pre ++ key)) := by
        intro entries
        simp [prepend, List.map_map, Function.comp_def]
      have least : sharedPre (pre ++ (key ++ first.1)) pre.length
          (((second :: others).map (prepend key)).map (prepend pre)) =
            pre.length + key.length := by
        apply sharedPre_of_least
        · intro entry listed
          obtain ⟨inner, _, rfl⟩ := List.mem_map.mp listed
          simp [prepend, shared_append]
        · exact ⟨prepend key other, List.mem_map_of_mem member,
            by simp [prepend, shared_append, parted]⟩
        · have bound := fits (prepend key first) (by simp)
          simp only [prepend, List.length_append] at bound
          omega
      have longer : pre.length < pre.length + key.length := by
        have positive := List.length_pos_of_ne_nil nonempty
        omega
      have second := encode_reference_length sha3
        (item sha3 (.branch children value))
      have small : SmallPair key false
          (ref sha3 (.branch children value)) :=
        small_pair false short.1 (by
          change (reference sha3 _).encode.length < 2 ^ 57
          omega)
      obtain ⟨one, fits⟩ := append_pair small
      have two := hash256aux_eq built (show ([.data (hexPrefix key false)] :
        List Item).length < 2 by simp) fits
      have text := hexPrefixEncodeVector_slice pre key first.1 false
      rw [joined] at least
      rw [joined]
      simp only [List.map_cons, hash256rlp, prepend, List.append_assoc]
        at built least two ⊢
      rw [least, if_pos longer, appendList_building (by decide), text]
      simp only [bind, Except.bind, one]
      rw [← List.length_append, two]
      rfl

/-- The entries that the loop over the slots starts with. -/
theorem start_eq {first : HexEntry} {others : List HexEntry}
    {children : Nibble → Node} {value : Option TrieValue}
    (lists : Lists (first :: others) (.branch children value))
    (pre : List Nibble) :
    (if pre.length = (prepend pre first).1.length then
        others.map (prepend pre)
      else (first :: others).map (prepend pre)) =
        (fromSlot 0 (first :: others)).map (prepend pre) ∧
      (if pre.length = (prepend pre first).1.length then first.2 else []) =
        slotBytes value := by
  have everything : fromSlot 0 (first :: others) =
      (first :: others).filter (Lists.startingWith fun _ => true) := by
    simp [fromSlot]
  rw [everything]
  by_cases empty : first.1 = []
  · obtain ⟨held, rest⟩ := lists.split_branch.1 empty
    rw [if_pos (by simp [prepend, empty]), if_pos (by simp [prepend, empty]),
      ← rest]
    obtain ⟨found, rfl, same⟩ := Option.map_eq_some_iff.mp held
    exact ⟨rfl, same.symm⟩
  · obtain ⟨held, rest⟩ := lists.split_branch.2 empty
    rw [if_neg (by simp [prepend, empty]), if_neg (by simp [prepend, empty]),
      ← rest, held]
    exact ⟨rfl, rfl⟩

/-- One slot of a branch. -/
theorem hash256slot_eq {children : Nibble → Node}
    {value : Option TrieValue} {entries : List HexEntry}
    {pre : List Nibble} {done : List Item}
    {inner : List HexEntry → Nat → RLPStream → Except RLPError RLPStream}
    (lists : Lists entries (.branch children value)) (digit : Nibble)
    (canonical : (children digit).Canonical)
    (below : ∀ segment, segment ≠ [] →
      entries.filter (Lists.startingWith (· == digit)) =
        segment.map (prepend [digit]) →
      Lists segment (children digit) →
      inner (segment.map (prepend (pre ++ [digit]))) (pre.length + 1) {} =
        .ok ⟨enc sha3 (children digit), []⟩)
    (missing : done.length < 17)
    (small : (encodeAll (done ++ [ref sha3 (children digit)])).length <
      sizeTRange) :
    hash256slot sha3 inner pre.length
        (building 17 done, (fromSlot digit.val entries).map (prepend pre))
        digit.val =
      .ok (building 17 (done ++ [ref sha3 (children digit)]),
        (fromSlot (digit.val + 1) entries).map (prepend pre)) := by
  obtain ⟨taken, dropped⟩ := split_fromSlot lists.sorted pre digit.val
  obtain ⟨segment, filtered, listed⟩ := lists.below_child digit
  have tests : (Lists.startingWith fun other => other.val == digit.val) =
      Lists.startingWith (· == digit) := by
    congr 1
    funext other
    rw [Bool.eq_iff_iff]
    simp [Fin.ext_iff]
  have joined : (segment.map (prepend [digit])).map (prepend pre) =
      segment.map (prepend (pre ++ [digit])) := by
    simp [prepend, List.map_map, Function.comp_def]
  simp only [hash256slot, taken, dropped, tests, filtered, joined]
  by_cases empty : children digit = .null
  · have none : segment = [] := by
      rw [empty] at listed
      exact listed.eq_nil
    rw [empty, ref_null] at small ⊢
    simp [none, append_building missing small, bind, Except.bind, pure,
      Except.pure]
  · have some := listed.ne_nil canonical empty
    have built := hash256aux_eq (below segment some filtered listed)
      missing small
    simp [some, built, bind, Except.bind, pure, Except.pure]

theorem hash256rlp_branch {children : Nibble → Node}
    {value : Option TrieValue} {entries : List HexEntry}
    {pre : List Nibble} {fuel : Nat}
    (canonical : (Trie.branch children value).Canonical)
    (lists : Lists entries (.branch children value))
    (fits : pre.length ≤ 2 ^ 32 - 1)
    (below : ∀ digit inner, inner ≠ [] →
      entries.filter (Lists.startingWith (· == digit)) =
        inner.map (prepend [digit]) →
      Lists inner (children digit) →
      hash256rlp sha3 fuel (inner.map (prepend (pre ++ [digit])))
        (pre.length + 1) {} = .ok ⟨enc sha3 (children digit), []⟩) :
    hash256rlp sha3 (fuel + 1) (entries.map (prepend pre)) pre.length {} =
      .ok ⟨enc sha3 (.branch children value), []⟩ := by
  have small := small_branch_ref sha3 children value
  have slots : (List.range 16).foldlM
      (hash256slot sha3 (hash256rlp sha3 fuel) pre.length)
      (building 17 [], (fromSlot 0 entries).map (prepend pre)) =
        .ok (building 17 (List.ofFn fun digit => ref sha3 (children digit)),
          (fromSlot 16 entries).map (prepend pre)) := by
    have whole : (List.ofFn fun digit => ref sha3 (children digit)).take 16 =
        List.ofFn fun digit => ref sha3 (children digit) :=
      List.take_of_length_le (by rw [List.length_ofFn])
    have rounds : ∀ slot < 16,
        hash256slot sha3 (hash256rlp sha3 fuel) pre.length
            (building 17
              ((List.ofFn fun digit => ref sha3 (children digit)).take slot),
              (fromSlot slot entries).map (prepend pre)) slot =
          .ok (building 17 ((List.ofFn fun digit =>
              ref sha3 (children digit)).take (slot + 1)),
            (fromSlot (slot + 1) entries).map (prepend pre)) := by
      intro slot inside
      have length : ((List.ofFn fun digit =>
          ref sha3 (children digit)).take slot).length = slot := by
        rw [List.length_take, List.length_ofFn]
        omega
      have next : (List.ofFn fun digit =>
          ref sha3 (children digit)).take (slot + 1) =
            (List.ofFn fun digit => ref sha3 (children digit)).take slot ++
              [ref sha3 (children ⟨slot, inside⟩)] := by
        rw [List.take_succ, List.getElem?_ofFn, dif_pos inside]
        rfl
      rw [next]
      refine hash256slot_eq lists ⟨slot, inside⟩ (canonical.1 _)
        (below ⟨slot, inside⟩) (by omega) ?_
      rw [← next]
      rw [branchItems, ← List.take_append_drop (slot + 1) (List.ofFn _),
        List.append_assoc] at small
      exact small_prefix small
    have known := foldlM_range_eq
      (fun slot => (building 17
        ((List.ofFn fun digit => ref sha3 (children digit)).take slot),
        (fromSlot slot entries).map (prepend pre))) rounds
    rwa [whole, List.take_zero] at known
  obtain ⟨first, second, others, rfl, other, member, parted⟩ :=
    lists.exists_two canonical
  have least : sharedPre (pre ++ first.1) pre.length
      ((second :: others).map (prepend pre)) = pre.length :=
    sharedPre_of_least (fun _ _ => Nat.zero_le _) ⟨other, member, parted⟩ fits
  obtain ⟨start, last⟩ := start_eq lists pre
  have final : (building 17
      (List.ofFn fun digit => ref sha3 (children digit))).append
        (slotBytes value) = .ok ⟨enc sha3 (.branch children value), []⟩ := by
    rw [append_building (by rw [List.length_ofFn]; decide)
      (sizeTRange_of_readLimit small)]
    rfl
  simp only [List.map_cons] at least start slots ⊢
  have shared : sharedPre (prepend pre first).1 pre.length
      (prepend pre second :: others.map (prepend pre)) = pre.length := least
  simp only [hash256rlp, shared, Nat.lt_irrefl, if_false, start,
    appendList_building (show 0 < 17 by decide), bind, Except.bind, slots]
  rw [← final, ← last]
  split <;> rfl

/-- The builder writes the canonical trie that holds the segment. -/
theorem hash256rlp_eq {node : Node} (canonical : node.Canonical)
    (short : node.Short) {entries : List HexEntry} {pre : List Nibble}
    {fuel : Nat} (lists : Lists entries node)
    (start : pre.length ≤ 2 ^ 32 - 1)
    (fits : ∀ entry ∈ entries, pre.length + entry.1.length ≤ 2 ^ 32 - 1)
    (positive : 0 < fuel)
    (enough : ∀ entry ∈ entries, entry.1.length < fuel) :
    hash256rlp sha3 fuel (entries.map (prepend pre)) pre.length {} =
      .ok ⟨enc sha3 node, []⟩ := by
  induction node generalizing entries pre fuel with
  | null =>
      obtain ⟨fuel, rfl⟩ := Nat.exists_eq_succ_of_ne_zero positive.ne'
      rw [lists.eq_nil]
      rfl
  | leaf key value =>
      obtain ⟨fuel, rfl⟩ := Nat.exists_eq_succ_of_ne_zero positive.ne'
      have small : SmallPair key true (.data value.val) :=
        small_pair true short (encode_value_length value)
      obtain ⟨one, fits⟩ := append_pair small
      have two := append_building (show ([.data (hexPrefix key true)] :
        List Item).length < 2 by simp) fits
      have text := hexPrefixEncodeVector_drop pre key true
      simp only [lists.eq_singleton, List.map_cons, List.map_nil, prepend,
        hash256rlp, appendList_building (show 0 < 2 by decide), bind,
        Except.bind, text, one, two]
      rfl
  | ext key child induction =>
      obtain ⟨fuel, rfl⟩ := Nat.exists_eq_succ_of_ne_zero positive.ne'
      have length := List.length_pos_of_ne_nil canonical.1
      refine hash256rlp_ext canonical short lists fits ?_
      rintro inner rfl listed
      have bounds : ∀ entry ∈ inner,
          (pre ++ key).length + entry.1.length ≤ 2 ^ 32 - 1 ∧
            entry.1.length + key.length < fuel + 1 := by
        intro entry member
        have bound := fits _ (List.mem_map_of_mem member)
        have depth := enough _ (List.mem_map_of_mem member)
        simp only [prepend, List.length_append] at bound depth ⊢
        omega
      have some := listed.ne_nil canonical.2.2
        (ne_null_of_isBranch canonical.2.1)
      obtain ⟨first, member⟩ := List.exists_mem_of_ne_nil _ some
      have sizes := bounds first member
      refine induction canonical.2.2 short.2 listed (by omega)
        (fun entry member => (bounds entry member).1) (by omega) ?_
      intro entry member
      have sizes := bounds entry member
      omega
  | branch children value induction =>
      obtain ⟨fuel, rfl⟩ := Nat.exists_eq_succ_of_ne_zero positive.ne'
      refine hash256rlp_branch canonical lists start ?_
      intro digit inner some filtered listed
      have bounds : ∀ entry ∈ inner,
          (pre ++ [digit]).length + entry.1.length ≤ 2 ^ 32 - 1 ∧
            entry.1.length + 1 < fuel + 1 := by
        intro entry member
        have member : prepend [digit] entry ∈ entries := by
          have listed : prepend [digit] entry ∈
              inner.map (prepend [digit]) := List.mem_map_of_mem member
          rw [← filtered] at listed
          exact (List.mem_filter.mp listed).1
        have bound := fits _ member
        have depth := enough _ member
        simp only [prepend, List.length_append, List.length_singleton]
          at bound depth ⊢
        omega
      obtain ⟨first, member⟩ := List.exists_mem_of_ne_nil _ some
      have sizes := bounds first member
      have built : hash256rlp sha3 fuel
          (inner.map (prepend (pre ++ [digit]))) (pre ++ [digit]).length {} =
            .ok ⟨enc sha3 (children digit), []⟩ := by
        refine induction digit (canonical.1 digit) (short digit) listed
          (by omega) (fun entry member => (bounds entry member).1) (by omega)
          ?_
        intro entry member
        have sizes := bounds entry member
        omega
      simpa using built

end Builder

/-! ## The sorted map -/

theorem mem_hexInsert {key : List Nibble} {value : Bytes}
    {entries : List HexEntry} (sorted : Sorted entries) (entry : HexEntry) :
    entry ∈ hexInsert key value entries ↔
      entry = (key, value) ∨ entry.1 ≠ key ∧ entry ∈ entries := by
  induction entries with
  | nil => simp [hexInsert]
  | cons first rest induction =>
      obtain ⟨before, later⟩ := List.pairwise_cons.mp sorted
      unfold hexInsert
      split
      next less =>
        have apart : ∀ other ∈ first :: rest, other.1 ≠ key := by
          intro other member same
          rcases List.mem_cons.mp member with equal | member
          · rw [← equal, same] at less
            exact absurd less (lt_irrefl key)
          · have more := before other member
            rw [same] at more
            exact absurd (lt_trans less more) (lt_irrefl key)
        rw [List.mem_cons]
        refine or_congr_right ⟨fun member => ⟨apart entry member, member⟩, ?_⟩
        exact fun both => both.2
      next notLess =>
        split
        next same =>
          have apart : ∀ other ∈ rest, other.1 ≠ key := by
            intro other member equal
            have more := before other member
            rw [equal, same] at more
            exact absurd more (lt_irrefl first.1)
          rw [List.mem_cons, List.mem_cons]
          refine or_congr_right ⟨?_, ?_⟩
          · exact fun member => ⟨apart entry member, .inr member⟩
          · rintro ⟨different, equal | member⟩
            · exact absurd (by rw [equal, same]) different
            · exact member
        next different =>
          rw [List.mem_cons, List.mem_cons, induction later]
          constructor
          · rintro (equal | equal | ⟨apart, member⟩)
            · exact .inr ⟨by rw [equal]; exact Ne.symm different, .inl equal⟩
            · exact .inl equal
            · exact .inr ⟨apart, .inr member⟩
          · rintro (equal | ⟨apart, equal | member⟩)
            · exact .inr (.inl equal)
            · exact .inl equal
            · exact .inr (.inr ⟨apart, member⟩)

theorem sorted_hexInsert (key : List Nibble) (value : Bytes)
    {entries : List HexEntry} (sorted : Sorted entries) :
    Sorted (hexInsert key value entries) := by
  induction entries with
  | nil => exact List.pairwise_singleton _ _
  | cons first rest induction =>
      obtain ⟨before, later⟩ := List.pairwise_cons.mp sorted
      unfold hexInsert
      split
      next less =>
        refine List.pairwise_cons.mpr ⟨?_, sorted⟩
        intro other member
        rcases List.mem_cons.mp member with equal | member
        · rw [equal]
          exact less
        · exact lt_trans less (before other member)
      next notLess =>
        split
        next same =>
          refine List.pairwise_cons.mpr ⟨?_, later⟩
          intro other member
          change key < other.1
          rw [same]
          exact before other member
        next different =>
          refine List.pairwise_cons.mpr ⟨?_, induction later⟩
          intro other member
          rcases (mem_hexInsert later other).mp member with
            equal | ⟨_, member⟩
          · rw [equal]
            exact lt_of_le_of_ne (not_lt.mp notLess) (Ne.symm different)
          · exact before other member

theorem sorted_hexMap (entries : List (Sigma fun _ : Bytes => Bytes)) :
    Sorted (hexMap entries) := by
  induction entries with
  | nil => exact List.Pairwise.nil
  | cons entry entries induction => exact sorted_hexInsert _ _ induction

theorem mem_hexMap {entries : List (Sigma fun _ : Bytes => Bytes)}
    (distinct : entries.NodupKeys) (path : List Nibble) (bytes : Bytes) :
    (path, bytes) ∈ hexMap entries ↔
      ∃ key, asNibbles key = path ∧ ⟨key, bytes⟩ ∈ entries := by
  induction entries with
  | nil => simp [hexMap]
  | cons entry entries induction =>
      obtain ⟨fresh, rest⟩ := List.nodupKeys_cons.mp distinct
      have inner := induction rest
      change (path, bytes) ∈
        hexInsert (asNibbles entry.1) entry.2 (hexMap entries) ↔ _
      rw [mem_hexInsert (sorted_hexMap entries), inner]
      constructor
      · rintro (equal | ⟨_, key, same, member⟩)
        · obtain ⟨rfl, rfl⟩ := Prod.mk.inj equal
          exact ⟨entry.1, rfl, by simp⟩
        · exact ⟨key, same, .tail _ member⟩
      · rintro ⟨key, same, member⟩
        rcases List.mem_cons.mp member with equal | member
        · left
          rw [← equal, ← same]
        · refine .inr ⟨?_, key, same, member⟩
          intro equal
          have keys : key = entry.1 := asNibbles_injective (same.trans equal)
          rw [← keys] at fresh
          exact fresh (List.mem_keys_of_mem member)

/-! ## The root of a map -/

/-- The trie holds the entries of the map. -/
def Agrees (map : BytesMap) (node : Node) : Prop :=
  ∀ path bytes, (∃ value, node.get path = some value ∧ value.val = bytes) ↔
    ∃ key, asNibbles key = path ∧ map.lookup key = some bytes

theorem Agrees.lists {map : BytesMap} {node : Node}
    (agrees : Agrees map node) : Lists (hexMap map.entries) node := by
  refine ⟨sorted_hexMap _, ?_⟩
  intro path bytes
  rw [mem_hexMap map.nodupKeys, agrees path bytes]
  refine exists_congr fun key => and_congr_right fun _ => ?_
  exact AList.mem_lookup_iff.symm

theorem length_le_foldr_max {entries : List HexEntry} {entry : HexEntry}
    (member : entry ∈ entries) :
    entry.1.length ≤
      (entries.map fun entry => entry.1.length).foldr max 0 := by
  induction entries with
  | nil => simp at member
  | cons first rest induction =>
      rw [List.map_cons, List.foldr_cons]
      rcases List.mem_cons.mp member with equal | member
      · rw [equal]
        exact le_max_left _ _
      · exact le_trans (induction member) (le_max_right _ _)

theorem hash256_eq {sha3 : Bytes → H256} {map : BytesMap} {node : Node}
    (canonical : node.Canonical) (agrees : Agrees map node)
    (bound : ∀ key ∈ map, key.length < 2 ^ 30) :
    hash256 sha3 map = .ok (sha3 (enc sha3 node)) := by
  have lists := agrees.lists
  have lengths : ∀ entry ∈ hexMap map.entries,
      entry.1.length ≤ 2 ^ 31 := by
    rintro ⟨path, bytes⟩ member
    obtain ⟨key, rfl, inside⟩ := (mem_hexMap map.nodupKeys _ _).mp member
    have small := bound key (AList.mem_keys.mpr (List.mem_keys_of_mem inside))
    simp only [length_asNibbles]
    omega
  have short : node.Short := by
    apply short_of_get canonical
    intro path value found
    have small := lengths _ ((lists.mem path value.val).mpr
      ⟨value, found, rfl⟩)
    dsimp only at small
    omega
  have text : rlp256 sha3 map = .ok (enc sha3 node) := by
    unfold rlp256
    split
    next empty =>
      have none : map.entries = [] := by simpa using empty
      have null : node = .null := by
        by_contra nonempty
        have some := lists.ne_nil canonical nonempty
        rw [none] at some
        exact some rfl
      rw [null]
      rfl
    next =>
      have same : (hexMap map.entries).map (prepend []) =
          hexMap map.entries := List.map_id _
      have built : hash256rlp sha3
          (((hexMap map.entries).map fun entry =>
            entry.1.length).foldr max 0 + 2)
          ((hexMap map.entries).map (prepend [])) ([] : List Nibble).length
            {} = .ok ⟨enc sha3 node, []⟩ := by
        refine hash256rlp_eq canonical short lists (by simp) ?_ (by omega) ?_
        · intro entry member
          have small := lengths entry member
          rw [List.length_nil]
          omega
        · intro entry member
          have small := length_le_foldr_max member
          omega
      rw [same] at built
      change (hash256rlp sha3
        (((hexMap map.entries).map fun entry =>
          entry.1.length).foldr max 0 + 2) (hexMap map.entries) 0 {} >>=
            fun stream => stream.result) = _
      rw [List.length_nil] at built
      rw [built]
      rfl
  simp [hash256, text, bind, Except.bind, pure, Except.pure]

end Aecmio
