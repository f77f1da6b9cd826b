import Mathlib.Logic.Relation
import Aecmio.Network.NodeTable

/-!
# Buckets of a node table

Whatever happens to a table changes its buckets in six ways only.  All of them
keep the size of a bucket and the distance of its entries.  That a bucket has
one live entry of a node at most is kept unless the entry of a node that is in
its bucket is replaced while a discovery holds on to it.
-/

namespace Aecmio

namespace NodeTable

open Relation

variable {table table' : NodeTable} {number : Nat} {id : NodeID}

/-! ## Simple facts -/

theorem isLive_iff : table.isLive number ↔
    (∃ id, table.nodes.lookup id = some number) ∨ number ∈ table.held := by
  rw [isLive, decide_eq_true_eq]
  constructor
  · intro live
    cases live with
    | inl member =>
        obtain ⟨⟨id, other⟩, listed, rfl⟩ := List.mem_map.mp member
        exact .inl ⟨id, AList.mem_lookup_iff.mpr listed⟩
    | inr member => exact .inr member
  · intro live
    cases live with
    | inl found =>
        obtain ⟨id, found⟩ := found
        exact .inl (List.mem_map.mpr ⟨⟨id, number⟩,
          AList.mem_lookup_iff.mp found, rfl⟩)
    | inr member => exact .inr member

theorem mem_held : number ∈ table.held ↔
    ∃ timer ∈ table.timers, number ∈ timer.task.tried := by
  rw [held, List.mem_flatMap]

theorem entry_setEntry (change : NodeEntry → NodeEntry) (other : Nat) :
    (table.setEntry number change).entry other =
      if number = other ∧ other < table.entries.length then
        change (table.entry other)
      else table.entry other := by
  simp only [entry, setEntry, List.getD_eq_getElem?_getD,
    List.getElem?_modify]
  by_cases inside : other < table.entries.length
  · by_cases same : number = other
    · simp [same, inside]
    · simp [same]
  · simp [inside]

theorem state_setBucket (index : Nat) (nodes : List Nat) (other : Nat) :
    (table.setBucket index nodes).state other =
      if other = index then nodes else table.state other := by
  show Function.update table.state index nodes other = _
  rw [Function.update_apply]

section

variable [Hashing]

/-- A node that is registered gets an entry of its own. -/
theorem entry_register (endpoint : NodeIPEndpoint) (pending : Bool)
    (other : Nat) : (table.register id endpoint pending).entry other =
      if other = table.entries.length then
        ⟨id, endpoint, distance table.id id, pending⟩
      else table.entry other := by
  simp only [entry, register, List.getD_eq_getElem?_getD]
  by_cases new : other = table.entries.length
  · simp [new]
  · by_cases inside : other < table.entries.length
    · simp [new, List.getElem?_append_left inside]
    · have outside : table.entries.length < other := by omega
      rw [if_neg new, List.getElem?_eq_none (by simp; omega),
        List.getElem?_eq_none (by omega)]

end

/-! ## Changes -/

/-- Nothing that the buckets are about changes, but a discovery may take hold
of live entries of buckets. -/
structure Quiet (table table' : NodeTable) : Prop where
  id : table'.id = table.id
  length : table'.entries.length = table.entries.length
  sameId : ∀ number, (table'.entry number).id = (table.entry number).id
  sameDistance : ∀ number,
    (table'.entry number).distance = (table.entry number).distance
  nodes : table'.nodes = table.nodes
  state : table'.state = table.state
  held : ∀ number ∈ table'.held, number ∈ table.held ∨
    ∃ index, number ∈ table.state index ∧ table.isLive number

/-- The entry of a node may be replaced: no discovery holds it, or it is not
in its bucket. -/
def Settled (table : NodeTable) (id : NodeID) : Prop :=
  ∀ number, table.nodes.lookup id = some number →
    number ∉ table.held ∨ number ∉ table.state (table.bucket number)

/-- The six ways in which a table changes.  If it is guarded, only the
entries of settled nodes are replaced. -/
inductive Change [Hashing] (guarded : Prop) : NodeTable → NodeTable → Prop where
  | quiet {table table' : NodeTable} (quiet : Quiet table table') :
      Change guarded table table'
  | moveBack {table : NodeTable} {number index : Nat}
      (member : number ∈ table.state index) :
      Change guarded table
        (table.setBucket index ((table.state index).erase number ++ [number]))
  | pushBack {table : NodeTable} {id : NodeID} {number : Nat}
      (found : table.nodes.lookup id = some number)
      (absent : number ∉ table.state (table.bucket number))
      (room : (table.state (table.bucket number)).length < s_bucketSize) :
      Change guarded table (table.setBucket (table.bucket number)
        (table.state (table.bucket number) ++ [number]))
  | replace {table : NodeTable} {id : NodeID} {number leastSeen : Nat}
      {others : List Nat} (found : table.nodes.lookup id = some number)
      (absent : number ∉ table.state (table.bucket number))
      (nodes : table.state (table.bucket number) = leastSeen :: others) :
      Change guarded table
        (table.setBucket (table.bucket number) (others ++ [number]))
  | remove {table : NodeTable} {number index : Nat} :
      Change guarded table (table.setBucket index
        ((table.state index).filter fun other => other ≠ number))
  | register {table : NodeTable} {id : NodeID} {endpoint : NodeIPEndpoint}
      {pending : Bool} (apart : 1 ≤ distance table.id id)
      (settled : guarded → Settled table id) :
      Change guarded table (table.register id endpoint pending)

section

variable [Hashing] {guarded : Prop}

abbrev Changes (guarded : Prop) : NodeTable → NodeTable → Prop :=
  ReflTransGen (Change guarded)

theorem Quiet.changes (quiet : Quiet table table') :
    Changes guarded table table' :=
  .single (.quiet quiet)

theorem Change.id_eq (change : Change guarded table table') :
    table'.id = table.id := by
  cases change with
  | quiet quiet => exact quiet.id
  | moveBack | pushBack | replace | remove | register => rfl

theorem Changes.id_eq (changes : Changes guarded table table') :
    table'.id = table.id := by
  induction changes with
  | refl => rfl
  | tail changes change induction => rw [change.id_eq, induction]

/-! ## What is kept -/

/-- Entries are where their distance says, and buckets are not too long. -/
structure Bucketed (table : NodeTable) : Prop where
  known : ∀ id number, table.nodes.lookup id = some number →
    number < table.entries.length ∧ (table.entry number).id = id
  kept : ∀ number ∈ table.held, number < table.entries.length
  measured : ∀ number < table.entries.length,
    (table.entry number).distance =
      distance table.id (table.entry number).id ∧
    1 ≤ (table.entry number).distance
  placed : ∀ index, ∀ number ∈ table.state index,
    number < table.entries.length ∧
      (table.entry number).distance = index + 1
  nodup : ∀ index, (table.state index).Nodup
  small : ∀ index, (table.state index).length ≤ s_bucketSize

namespace Bucketed

theorem bucket_eq (bucketed : Bucketed table) {index : Nat}
    (member : number ∈ table.state index) : table.bucket number = index := by
  have placed := (bucketed.placed index number member).2
  rw [bucket, placed, Nat.add_sub_cancel]

theorem distance_bucket (bucketed : Bucketed table)
    (found : table.nodes.lookup id = some number) :
    (table.entry number).distance = table.bucket number + 1 := by
  have measured := bucketed.measured number (bucketed.known id number found).1
  rw [bucket]
  omega

/-- A bucket that is written anew holds what belongs there. -/
theorem setBucket (bucketed : Bucketed table) {index : Nat} {nodes : List Nat}
    (placed : ∀ number ∈ nodes, number < table.entries.length ∧
      (table.entry number).distance = index + 1)
    (nodup : nodes.Nodup) (small : nodes.length ≤ s_bucketSize) :
    Bucketed (table.setBucket index nodes) where
  known := bucketed.known
  kept := bucketed.kept
  measured := bucketed.measured
  placed other number member := by
    rw [state_setBucket] at member
    split at member
    · next same =>
        rw [same]
        exact placed number member
    · exact bucketed.placed other number member
  nodup other := by
    rw [state_setBucket]
    split
    · exact nodup
    · exact bucketed.nodup other
  small other := by
    rw [state_setBucket]
    split
    · exact small
    · exact bucketed.small other

theorem quiet (bucketed : Bucketed table) (quiet : Quiet table table') :
    Bucketed table' where
  known id number found := by
    rw [quiet.nodes] at found
    rw [quiet.length, quiet.sameId]
    exact bucketed.known id number found
  kept number member := by
    rw [quiet.length]
    cases quiet.held number member with
    | inl held => exact bucketed.kept number held
    | inr taken =>
        obtain ⟨index, member, -⟩ := taken
        exact (bucketed.placed index number member).1
  measured number inside := by
    rw [quiet.length] at inside
    rw [quiet.sameDistance, quiet.sameId, quiet.id]
    exact bucketed.measured number inside
  placed index number member := by
    rw [quiet.state] at member
    rw [quiet.length, quiet.sameDistance]
    exact bucketed.placed index number member
  nodup index := by
    rw [quiet.state]
    exact bucketed.nodup index
  small index := by
    rw [quiet.state]
    exact bucketed.small index

theorem register (bucketed : Bucketed table) (apart : 1 ≤ distance table.id id)
    (endpoint : NodeIPEndpoint) (pending : Bool) :
    Bucketed (table.register id endpoint pending) := by
  have length : (table.register id endpoint pending).entries.length =
      table.entries.length + 1 := by
    rw [NodeTable.register, List.length_append]
    rfl
  have old : ∀ number < table.entries.length,
      (table.register id endpoint pending).entry number =
        table.entry number := by
    intro number inside
    rw [entry_register, if_neg (Nat.ne_of_lt inside)]
  constructor
  · intro other number found
    rw [length]
    by_cases same : other = id
    · rw [same] at found ⊢
      have new : number = table.entries.length := by
        rw [NodeTable.register, AList.lookup_insert] at found
        exact (Option.some.inj found).symm
      rw [entry_register, if_pos new]
      exact ⟨by omega, rfl⟩
    · rw [NodeTable.register, AList.lookup_insert_ne same] at found
      obtain ⟨inside, same⟩ := bucketed.known other number found
      rw [old number inside]
      exact ⟨by omega, same⟩
  · intro number member
    rw [length]
    exact (bucketed.kept number member).trans (Nat.lt_succ_self _)
  · intro number inside
    rw [length] at inside
    by_cases new : number = table.entries.length
    · rw [entry_register, if_pos new]
      exact ⟨rfl, apart⟩
    · rw [old number (by omega)]
      exact bucketed.measured number (by omega)
  · intro index number member
    obtain ⟨inside, distance⟩ := bucketed.placed index number member
    rw [length, old number inside]
    exact ⟨by omega, distance⟩
  · exact bucketed.nodup
  · exact bucketed.small

/-- Every change leaves the buckets in order. -/
theorem change (bucketed : Bucketed table)
    (change : Change guarded table table') : Bucketed table' := by
  cases change with
  | quiet quiet => exact bucketed.quiet quiet
  | @moveBack number index member =>
      have small := bucketed.small index
      have positive := List.length_pos_of_mem member
      apply bucketed.setBucket
      · intro other moved
        apply bucketed.placed index
        cases List.mem_append.mp moved with
        | inl kept => exact List.mem_of_mem_erase kept
        | inr last =>
            cases List.mem_singleton.mp last
            exact member
      · rw [List.nodup_append_comm]
        exact List.nodup_cons.mpr
          ⟨(bucketed.nodup index).not_mem_erase,
            (bucketed.nodup index).erase number⟩
      · rw [List.length_append, List.length_erase_of_mem member]
        simp only [List.length_singleton]
        omega
  | pushBack found absent room =>
      apply bucketed.setBucket
      · intro other member
        cases List.mem_append.mp member with
        | inl member => exact bucketed.placed _ other member
        | inr last =>
            cases List.mem_singleton.mp last
            exact ⟨(bucketed.known _ _ found).1,
              bucketed.distance_bucket found⟩
      · rw [List.nodup_append_comm]
        exact List.nodup_cons.mpr ⟨absent, bucketed.nodup _⟩
      · rw [List.length_append]
        exact room
  | @replace _ number leastSeen others found absent nodes =>
      have inBucket : ∀ other ∈ others,
          other ∈ table.state (table.bucket number) := by
        intro other member
        rw [nodes]
        exact List.mem_cons_of_mem _ member
      have nodup := bucketed.nodup (table.bucket number)
      have small := bucketed.small (table.bucket number)
      rw [nodes] at nodup small
      apply bucketed.setBucket
      · intro other member
        cases List.mem_append.mp member with
        | inl member => exact bucketed.placed _ other (inBucket other member)
        | inr last =>
            cases List.mem_singleton.mp last
            exact ⟨(bucketed.known _ _ found).1,
              bucketed.distance_bucket found⟩
      · rw [List.nodup_append_comm]
        exact List.nodup_cons.mpr
          ⟨fun member => absent (inBucket _ member), nodup.of_cons⟩
      · rw [List.length_append]
        exact small
  | @remove number index =>
      apply bucketed.setBucket
      · intro other member
        exact bucketed.placed index other (List.mem_of_mem_filter member)
      · exact (bucketed.nodup index).filter _
      · exact (List.length_filter_le _ _).trans (bucketed.small index)
  | register apart settled => exact bucketed.register apart _ _

theorem changes (bucketed : Bucketed table)
    (changes : Changes guarded table table') : Bucketed table' := by
  induction changes with
  | refl => exact bucketed
  | tail changes change induction => exact induction.change change

end Bucketed

/-- The live entries of a bucket are those that their nodes have now. -/
def Current (table : NodeTable) : Prop :=
  ∀ index, ∀ number ∈ table.state index, table.isLive number →
    table.nodes.lookup (table.entry number).id = some number

theorem Current.register (current : Current table)
    (bucketed : Bucketed table) (settled : Settled table id)
    (endpoint : NodeIPEndpoint) (pending : Bool) :
    Current (table.register id endpoint pending) := by
  intro index number member live
  have member : number ∈ table.state index := member
  have inside := (bucketed.placed index number member).1
  have bucket := bucketed.bucket_eq member
  rw [entry_register, if_neg (Nat.ne_of_lt inside)]
  have other : table.nodes.lookup (table.entry number).id = some number →
      (table.entry number).id ≠ id →
      (table.register id endpoint pending).nodes.lookup
        (table.entry number).id = some number := by
    intro found different
    rw [NodeTable.register, AList.lookup_insert_ne different]
    exact found
  cases isLive_iff.mp live with
  | inl found =>
      obtain ⟨key, found⟩ := found
      by_cases same : key = id
      · rw [same, NodeTable.register, AList.lookup_insert] at found
        exact absurd (Option.some.inj found) (Nat.ne_of_gt inside)
      · rw [NodeTable.register, AList.lookup_insert_ne same] at found
        have known := (bucketed.known key number found).2
        apply other
        · rw [known]
          exact found
        · rw [known]
          exact same
  | inr held =>
      have held : number ∈ table.held := held
      have found := current index number member (isLive_iff.mpr (.inr held))
      apply other found
      intro same
      rw [same] at found
      -- the entry that is replaced is in its bucket and held
      cases settled number found with
      | inl free => exact free held
      | inr outside =>
          rw [bucket] at outside
          exact outside member

omit [Hashing] in
theorem Current.setBucket (current : Current table) {index : Nat}
    {nodes : List Nat}
    (fine : ∀ number ∈ nodes, number ∈ table.state index ∨
      table.nodes.lookup (table.entry number).id = some number) :
    Current (table.setBucket index nodes) := by
  intro other number member live
  rw [state_setBucket] at member
  split at member
  · cases fine number member with
    | inl old => exact current index number old live
    | inr found => exact found
  · exact current other number member live

theorem Current.change (current : Current table) (bucketed : Bucketed table)
    (holds : guarded) (change : Change guarded table table') :
    Current table' := by
  cases change with
  | quiet quiet =>
      intro index number member live
      rw [quiet.state] at member
      rw [quiet.nodes, quiet.sameId]
      apply current index number member
      cases isLive_iff.mp live with
      | inl found =>
          rw [quiet.nodes] at found
          exact isLive_iff.mpr (.inl found)
      | inr held =>
          cases quiet.held number held with
          | inl held => exact isLive_iff.mpr (.inr held)
          | inr taken =>
              obtain ⟨-, -, live⟩ := taken
              exact live
  | @moveBack number index member =>
      apply current.setBucket
      intro other moved
      cases List.mem_append.mp moved with
      | inl kept => exact .inl (List.mem_of_mem_erase kept)
      | inr last =>
          cases List.mem_singleton.mp last
          exact .inl member
  | pushBack found absent room =>
      apply current.setBucket
      intro other member
      cases List.mem_append.mp member with
      | inl member => exact .inl member
      | inr last =>
          cases List.mem_singleton.mp last
          rw [(bucketed.known _ _ found).2]
          exact .inr found
  | replace found absent nodes =>
      apply current.setBucket
      intro other member
      cases List.mem_append.mp member with
      | inl member =>
          rw [nodes]
          exact .inl (List.mem_cons_of_mem _ member)
      | inr last =>
          cases List.mem_singleton.mp last
          rw [(bucketed.known _ _ found).2]
          exact .inr found
  | remove =>
      apply current.setBucket
      intro other member
      exact .inl (List.mem_of_mem_filter member)
  | register apart settled =>
      exact current.register bucketed (settled holds) _ _

theorem Current.changes (current : Current table) (bucketed : Bucketed table)
    (holds : guarded) (changes : Changes guarded table table') :
    Current table' := by
  induction changes with
  | refl => exact current
  | tail changes change induction =>
      exact induction.change (bucketed.changes changes) holds change

/-! ## What the methods do -/

omit [Hashing] in
/-- What the buckets are not about may change. -/
theorem Quiet.of_eq (id : table'.id = table.id)
    (entries : table'.entries = table.entries)
    (nodes : table'.nodes = table.nodes) (state : table'.state = table.state)
    (timers : table'.timers = table.timers) : Quiet table table' where
  id
  length := by rw [entries]
  sameId number := by rw [entry, entry, entries]
  sameDistance number := by rw [entry, entry, entries]
  nodes
  state
  held number member := by
    rw [mem_held, timers, ← mem_held] at member
    exact .inl member

omit [Hashing] in
theorem quiet_setEntry {change : NodeEntry → NodeEntry}
    (sameId : ∀ entry, (change entry).id = entry.id)
    (sameDistance : ∀ entry, (change entry).distance = entry.distance) :
    Quiet table (table.setEntry number change) := by
  constructor
  · rfl
  · exact List.length_modify _ _ _
  · intro other
    rw [entry_setEntry]
    split
    · exact sameId _
    · rfl
  · intro other
    rw [entry_setEntry]
    split
    · exact sameDistance _
    · rfl
  · rfl
  · rfl
  · exact fun _ member => .inl member

omit [Hashing] in
/-- A task is scheduled that holds live entries of buckets only. -/
theorem quiet_schedule {now delay : TimePoint} {task : Task}
    (tried : ∀ number ∈ task.tried, number ∈ table.held ∨
      ∃ index, number ∈ table.state index ∧ table.isLive number) :
    Quiet table (table.schedule now delay task) where
  id := rfl
  length := rfl
  sameId _ := rfl
  sameDistance _ := rfl
  nodes := rfl
  state := rfl
  held number member := by
    rw [mem_held] at member
    obtain ⟨timer, scheduled, member⟩ := member
    cases List.mem_append.mp scheduled with
    | inl old => exact .inl (mem_held.mpr ⟨timer, old, member⟩)
    | inr new =>
        cases List.mem_singleton.mp new
        exact tried number member

omit [Hashing] in
theorem quiet_doCheckEvictions (now : TimePoint) :
    Quiet table (table.doCheckEvictions now) :=
  quiet_schedule fun _ member => nomatch member

theorem changes_appendEvent (changes : Changes guarded table table')
    (id : NodeID) (event : NodeTableEventType) :
    Changes guarded table (table'.appendEvent id event) :=
  changes.tail (.quiet (.of_eq rfl rfl rfl rfl rfl))

theorem changes_evict (now : TimePoint) (leastSeen new : Nat) :
    Changes guarded table (table.evict now leastSeen new) := by
  have challenged : Changes guarded table
      (table.challenge now leastSeen new) := by
    rw [challenge]
    split
    · exact .refl
    · apply Quiet.changes
      exact .of_eq rfl rfl rfl rfl rfl
  rw [evict]
  split
  · exact .refl
  · simp only
    split
    · exact challenged.tail (.quiet (quiet_doCheckEvictions now))
    · exact challenged

theorem changes_dropNode (number : Nat) :
    Changes guarded table (table.dropNode number) :=
  changes_appendEvent (.single .remove) _ _

theorem changes_checkEvictions (now : TimePoint) :
    Changes guarded table (table.checkEvictions now) := by
  have dropped : ∀ (drop : List Nat) (table : NodeTable),
      Changes guarded table (drop.foldl dropNode table) := by
    intro drop
    induction drop with
    | nil => exact fun _ => .refl
    | cons number drop induction =>
        intro table
        exact (changes_dropNode number).trans (induction _)
  rw [checkEvictions]
  split
  · exact (dropped _ _).tail (.quiet (quiet_doCheckEvictions now))
  · exact dropped _ _

theorem changes_noteActiveNode (now : TimePoint) (id : NodeID)
    (endpoint : UdpEndpoint) :
    Changes guarded table (table.noteActiveNode now id endpoint) := by
  rw [noteActiveNode]
  split
  · exact .refl
  · cases found : table.nodes.lookup id with
    | none => exact .refl
    | some number =>
        simp only
        split
        · exact .refl
        · generalize changed : table.setEntry number _ = middle
          have quiet : Quiet table middle := by
            rw [← changed]
            exact quiet_setEntry (fun _ => rfl) (fun _ => rfl)
          have found : middle.nodes.lookup id = some number := by
            rw [quiet.nodes]
            exact found
          apply quiet.changes.trans
          split
          · next member => exact .single (.moveBack member)
          · next absent =>
              split
              · next room =>
                  exact changes_appendEvent
                    (.single (.pushBack found absent room)) _ _
              · split
                · exact .refl
                · next leastSeen others nodes =>
                    split
                    · exact changes_evict now _ _
                    · exact changes_appendEvent
                        (.single (.replace found absent nodes)) _ _

theorem changes_addNode {relation : NodeRelation} (now : TimePoint)
    (apart : 1 ≤ distance table.id id) (endpoint : NodeIPEndpoint)
    (settled : relation = .known → guarded → Settled table id) :
    Changes guarded table (table.addNode now id endpoint relation) := by
  cases relation with
  | known =>
      exact .head (.register apart (settled rfl))
        (changes_noteActiveNode now _ _)
  | unknown =>
      rw [addNode]
      split
      · exact .refl
      · split
        · apply Quiet.changes
          exact .of_eq rfl rfl rfl rfl rfl
        · split
          · exact .refl
          · next absent =>
              apply ReflTransGen.single
              apply Change.register apart
              intro _ number found
              have member : id ∈ table.nodes := by
                rw [← AList.lookup_isSome, found]
                rfl
              exact absurd member absent

theorem mem_nearestNodeEntries {target : NodeID}
    (member : number ∈ table.nearestNodeEntries target) :
    ∃ index, number ∈ table.state index ∧ table.isLive number := by
  have found := List.mem_of_mem_filter (List.mem_of_mem_take member)
  rw [List.mem_insertionSort, List.mem_flatMap] at found
  obtain ⟨index, -, member⟩ := found
  exact ⟨index, (List.mem_filter.mp member).1, (List.mem_filter.mp member).2⟩

theorem changes_doDiscover (now : TimePoint) (node : NodeID) (round : Nat)
    {tried : List Nat} (kept : ∀ number ∈ tried, number ∈ table.held) :
    Changes guarded table (table.doDiscover now node round tried) := by
  have none : ∀ number ∈ Task.doDiscovery.tried, number ∈ table.held ∨
      ∃ index, number ∈ table.state index ∧ table.isLive number :=
    fun _ member => nomatch member
  rw [doDiscover]
  split
  · exact .refl
  · split
    · exact (quiet_schedule none).changes
    · simp only
      generalize noted : NodeTable.mk _ _ _ _ _ _ _ _ _ _ _ _ = middle
      have quiet : Quiet table middle := by
        rw [← noted]
        exact .of_eq rfl rfl rfl rfl rfl
      have held : middle.held = table.held := by
        rw [← noted]
        rfl
      have live : ∀ number, middle.isLive number = table.isLive number := by
        intro number
        rw [← noted]
        rfl
      apply quiet.changes.tail
      apply Change.quiet
      split
      · exact quiet_schedule fun _ member => nomatch member
      · apply quiet_schedule
        intro number member
        rw [held, quiet.state, live]
        cases List.mem_append.mp member with
        | inl old => exact .inl (kept number old)
        | inr asked =>
            exact .inr (mem_nearestNodeEntries
              (List.mem_of_mem_filter (List.mem_of_mem_take asked)))

theorem changes_clearPending (number : Nat) :
    Changes guarded table (table.clearPending number) := by
  apply Quiet.changes
  exact quiet_setEntry (fun _ => rfl) (fun _ => rfl)

theorem changes_keepLeastSeen (id : NodeID) (eviction : EvictionTimeout) :
    Changes guarded table (table.keepLeastSeen id eviction) := by
  have dropped : ∀ table : NodeTable,
      Changes guarded table (table.dropKnown eviction.newNodeID) := by
    intro table
    rw [dropKnown]
    split
    · exact changes_dropNode _
    · exact .refl
  have cleared : ∀ table : NodeTable,
      Changes guarded table (table.clearKnown id) := by
    intro table
    rw [clearKnown]
    split
    · exact changes_clearPending _
    · exact .refl
  rw [keepLeastSeen]
  generalize noted : NodeTable.mk _ _ _ _ _ _ _ _ _ _ _ _ = erased
  have quiet : Quiet table erased := by
    rw [← noted]
    exact .of_eq rfl rfl rfl rfl rfl
  exact (quiet.changes.trans (dropped _)).trans (cleared _)

theorem changes_welcome {now : TimePoint} {source : UdpEndpoint}
    (apart : 1 ≤ distance table.id id)
    (welcomed : table.welcome now source id = some table') :
    Changes guarded table table' := by
  rw [welcome] at welcomed
  split at welcomed
  · cases welcomed
    exact changes_clearPending _
  · split at welcomed
    · cases welcomed
    · generalize noted : NodeTable.mk _ _ _ _ _ _ _ _ _ _ _ _ = middle
        at welcomed
      have quiet : Quiet table middle := by
        rw [← noted]
        exact .of_eq rfl rfl rfl rfl rfl
      cases welcomed
      apply quiet.changes.trans
      split
      · exact .refl
      · exact changes_addNode now (quiet.id ▸ apart) _ nofun

theorem changes_onPong {now : TimePoint} {source : UdpEndpoint}
    {destination : NodeIPEndpoint} (apart : 1 ≤ distance table.id id)
    (received : table.onPong now source id destination = some table') :
    Changes guarded table table' := by
  rw [onPong] at received
  obtain ⟨middle, decided, rfl⟩ := Option.map_eq_some_iff.mp received
  have changes : Changes guarded table middle := by
    split at decided
    · cases decided
      exact changes_keepLeastSeen id _
    · exact changes_welcome apart decided
  apply changes.tail
  exact .quiet (.of_eq rfl rfl rfl rfl rfl)

theorem changes_onNeighbours {neighbours : List Neighbour} (now : TimePoint)
    (apart : ∀ neighbour ∈ neighbours, 1 ≤ distance table.id neighbour.node) :
    Changes guarded table (table.onNeighbours now id neighbours) := by
  have added : ∀ table : NodeTable, (∀ neighbour ∈ neighbours,
      1 ≤ distance table.id neighbour.node) →
      Changes guarded table (neighbours.foldl (fun table neighbour =>
        table.addNode now neighbour.node neighbour.endpoint) table) := by
    clear apart
    induction neighbours with
    | nil => exact fun _ _ => .refl
    | cons neighbour neighbours induction =>
        intro table apart
        have first : Changes guarded table
            (table.addNode now neighbour.node neighbour.endpoint) :=
          changes_addNode now (apart neighbour List.mem_cons_self) _ nofun
        apply first.trans
        apply induction
        intro other member
        rw [first.id_eq]
        exact apart other (List.mem_cons_of_mem _ member)
  rw [onNeighbours]
  generalize noted : NodeTable.mk _ _ _ _ _ _ _ _ _ _ _ _ = middle
  have quiet : Quiet table middle := by
    rw [← noted]
    exact .of_eq rfl rfl rfl rfl rfl
  apply quiet.changes.trans
  split
  · exact .refl
  · exact added middle (quiet.id ▸ apart)

/-- The nodes that an input may bring into a table. -/
def Input.ids : Input → List NodeID
  | .addNode id _ _ => [id]
  | .onReceived _ _ packet => packet.sourceid ::
      match packet.packet with
      | .neighbours packet => packet.neighbours.map Neighbour.node
      | _ => []
  | _ => []

/-- An input does not replace an entry that is in its bucket while a discovery
holds it. -/
def Spares (table : NodeTable) (input : Input) : Prop :=
  ∀ id endpoint, input = .addNode id endpoint .known → Settled table id

theorem changes_onReceived {seconds : UInt32} {source : UdpEndpoint}
    {packet : DiscoveryDatagram} (now : TimePoint)
    (apart : ∀ id ∈ (Input.onReceived seconds source packet).ids,
      1 ≤ distance table.id id) :
    Changes guarded table (table.onReceived now seconds source packet) := by
  have sender := apart packet.sourceid List.mem_cons_self
  rw [onReceived]
  split
  · exact .refl
  · cases content : packet.packet with
    | pong pong =>
        simp only
        split
        · exact .refl
        · next received =>
            exact (changes_onPong sender received).trans
              (changes_noteActiveNode now _ _)
    | neighbours neighbours =>
        apply (changes_onNeighbours now ?_).trans
          (changes_noteActiveNode now _ _)
        intro neighbour member
        apply apart
        rw [Input.ids, content]
        exact List.mem_cons_of_mem _ (List.mem_map_of_mem member)
    | findNode findNode => exact changes_noteActiveNode now _ _
    | pingNode ping =>
        exact (changes_addNode now sender _ nofun).trans
          (changes_noteActiveNode now _ _)

theorem changes_perform {timer : Timer} (now : TimePoint) (randNodeId : NodeID)
    (scheduled : timer ∈ table.timers) :
    Changes guarded table (table.perform now randNodeId timer.task) := by
  cases task : timer.task with
  | doCheckEvictions => exact changes_checkEvictions now
  | doDiscovery =>
      exact changes_doDiscover now _ _ fun _ member => nomatch member
  | doDiscover node round tried =>
      apply changes_doDiscover
      intro number member
      apply mem_held.mpr
      refine ⟨timer, scheduled, ?_⟩
      rw [task]
      exact member

/-- A step of a table is a sequence of changes. -/
theorem changes_step {now : TimePoint} {input : Input}
    (apart : ∀ id ∈ input.ids, 1 ≤ distance table.id id)
    (spares : guarded → Spares table input)
    (stepped : table.step now input = some table') :
    Changes guarded table table' := by
  cases input with
  | addNode id endpoint relation =>
      cases stepped
      apply changes_addNode now (apart id List.mem_cons_self)
      intro isKnown holds
      rw [isKnown] at spares
      exact spares holds id endpoint rfl
  | noteActiveNode id endpoint =>
      cases stepped
      exact changes_noteActiveNode now id endpoint
  | dropNode number =>
      rw [step] at stepped
      split at stepped
      · cases stepped
        exact changes_dropNode number
      · cases stepped
  | onReceived seconds source packet =>
      cases stepped
      exact changes_onReceived now apart
  | fire position randNodeId =>
      rw [step] at stepped
      cases found : table.timers[position]? with
      | none =>
          rw [found] at stepped
          cases stepped
      | some timer =>
          rw [found] at stepped
          simp only at stepped
          split at stepped
          · cases stepped
            apply (changes_perform now randNodeId
              (List.mem_of_getElem? found)).tail
            apply Change.quiet
            constructor
            case held =>
              intro number member
              obtain ⟨other, scheduled, member⟩ := mem_held.mp member
              exact .inl (mem_held.mpr
                ⟨other, List.mem_of_mem_eraseIdx scheduled, member⟩)
            all_goals intros; rfl
          · cases stepped
  | disconnect =>
      cases stepped
      apply Quiet.changes
      exact .of_eq rfl rfl rfl rfl rfl

/-! ## Runs -/

theorem changes_run {moments : List (TimePoint × Input)}
    (apart : ∀ moment ∈ moments, ∀ id ∈ moment.2.ids,
      1 ≤ distance table.id id)
    (spares : guarded →
      Throughout (fun table moment => Spares table moment.2) table moments)
    (ran : table.run moments = some table') :
    Changes guarded table table' := by
  induction moments generalizing table with
  | nil =>
      cases ran
      exact .refl
  | cons moment moments induction =>
      obtain ⟨middle, stepped, ran⟩ := Runs.run_cons.mp ran
      have first : Changes guarded table middle :=
        changes_step (apart _ List.mem_cons_self)
          (fun holds => (spares holds).1) stepped
      apply first.trans
      apply induction
      · intro other member
        rw [first.id_eq]
        exact apart other (List.mem_cons_of_mem _ member)
      · exact fun holds => (spares holds).2 middle stepped
      · exact ran

section

variable (id : NodeID) (endpoint : NodeIPEndpoint) (allowLocal isOpen : Bool)
  (now : TimePoint)

omit [Hashing] in
theorem quiet_construct : Quiet { id, endpoint, allowLocal, isOpen }
    (construct id endpoint allowLocal isOpen now) := by
  rw [construct]
  split
  · exact quiet_schedule fun _ member => nomatch member
  · exact .of_eq rfl rfl rfl rfl rfl

theorem bucketed_empty :
    Bucketed { id, endpoint, allowLocal, isOpen } where
  known id number found := by
    rw [AList.lookup_empty] at found
    cases found
  kept _ member := nomatch member
  measured _ inside := absurd inside (Nat.not_lt_zero _)
  placed _ _ member := nomatch member
  nodup _ := .nil
  small _ := Nat.zero_le _

theorem bucketed_construct :
    Bucketed (construct id endpoint allowLocal isOpen now) :=
  (bucketed_empty id endpoint allowLocal isOpen).quiet
    (quiet_construct id endpoint allowLocal isOpen now)

omit [Hashing] in
theorem current_construct :
    Current (construct id endpoint allowLocal isOpen now) := by
  intro index number member
  rw [(quiet_construct id endpoint allowLocal isOpen now).state] at member
  cases member

end

/-- Live entries that nodes have now are in the snapshot once. -/
theorem snapshot_nodup (bucketed : Bucketed table) (current : Current table) :
    (table.snapshot.map NodeEntry.id).Nodup := by
  have same : ∀ {index other number number' : Nat},
      number ∈ (table.state index).filter table.isLive →
      number' ∈ (table.state other).filter table.isLive →
      (table.entry number).id = (table.entry number').id →
      number = number' := by
    intro index other number number' member member' sameId
    obtain ⟨member, live⟩ := List.mem_filter.mp member
    obtain ⟨member', live'⟩ := List.mem_filter.mp member'
    have found := current index number member live
    rw [sameId, current other number' member' live'] at found
    exact (Option.some.inj found).symm
  rw [snapshot, List.map_flatMap, List.nodup_flatMap]
  constructor
  · intro index _
    rw [List.map_map]
    apply List.Nodup.map_on
    · intro number member number' member'
      exact same member member'
    · exact (bucketed.nodup index).filter _
  · apply List.Nodup.pairwise_of_forall_ne List.nodup_range
    intro index _ other _ different id member member'
    simp only [List.map_map] at member member'
    obtain ⟨number, inBucket, sameId⟩ := List.mem_map.mp member
    obtain ⟨number', inBucket', sameId'⟩ := List.mem_map.mp member'
    cases same inBucket inBucket' (sameId.trans sameId'.symm)
    apply different
    rw [← bucketed.bucket_eq (List.mem_of_mem_filter inBucket),
      ← bucketed.bucket_eq (List.mem_of_mem_filter inBucket')]

/-- Buckets are never too long and hold entries of their own distance.  The
snapshot shows a node once as long as no entry is replaced that is in its
bucket while a discovery holds it. -/
theorem run_buckets {id : NodeID} {endpoint : NodeIPEndpoint}
    {allowLocal isOpen : Bool} {now : TimePoint}
    {moments : List (TimePoint × Input)} {table : NodeTable}
    (apart : ∀ moment ∈ moments, ∀ other ∈ moment.2.ids,
      1 ≤ distance id other)
    (ran : (construct id endpoint allowLocal isOpen now).run moments =
      some table) :
    (∀ index, (table.state index).length ≤ s_bucketSize) ∧
      (∀ index, ∀ number ∈ table.state index, table.isLive number →
        distance id (table.entry number).id = index + 1) ∧
      (Throughout (fun table moment => Spares table moment.2)
          (construct id endpoint allowLocal isOpen now) moments →
        (table.snapshot.map NodeEntry.id).Nodup) := by
  have start := bucketed_construct id endpoint allowLocal isOpen now
  have sameId := (quiet_construct id endpoint allowLocal isOpen now).id
  have apart : ∀ moment ∈ moments, ∀ other ∈ moment.2.ids,
      1 ≤ distance (construct id endpoint allowLocal isOpen now).id other := by
    rw [sameId]
    exact apart
  have changes : Changes False (construct id endpoint allowLocal isOpen now)
      table := changes_run apart False.elim ran
  have bucketed := start.changes changes
  refine ⟨bucketed.small, ?_, ?_⟩
  · intro index number member _
    obtain ⟨inside, placed⟩ := bucketed.placed index number member
    have measured := (bucketed.measured number inside).1
    rw [changes.id_eq, sameId] at measured
    rw [← measured, placed]
  · intro spares
    have changes : Changes True (construct id endpoint allowLocal isOpen now)
        table := changes_run apart (fun _ => spares) ran
    exact snapshot_nodup bucketed
      ((current_construct id endpoint allowLocal isOpen now).changes start
        trivial changes)

end

/-! ## An entry replaced during a discovery -/

def tableSampleHashing : Hashing where
  sha3 content := hashOfNat (fromBigEndian content)
  trieRoot _ := hashOfNat 0

attribute [local instance] tableSampleHashing

def nodeSample (number : Nat) : NodeID :=
  ⟨toBigEndian number 64, length_toBigEndian number 64⟩

def endpointSample (last : UInt8) : NodeIPEndpoint where
  address := .v4 ⟨[8, 8, 8, last], rfl⟩
  udpPort := 30303
  tcpPort := 30303

def tableSample : NodeTable :=
  construct (nodeSample 1) (endpointSample 1) false true 0

/-- A node is added, tried by a discovery and added at another endpoint. -/
def momentsSample : List (TimePoint × Input) :=
  [(0, .addNode (nodeSample 5) (endpointSample 5) .known),
    (7200, .fire 0 (nodeSample 3)),
    (7300, .addNode (nodeSample 5) (endpointSample 6) .known)]

theorem momentsSample_apart : ∀ moment ∈ momentsSample,
    ∀ other ∈ moment.2.ids, 1 ≤ distance (nodeSample 1) other := by
  decide +kernel

theorem snapshot_repeats :
    ((tableSample.run momentsSample).map fun table =>
        table.snapshot.map NodeEntry.id) =
      some [nodeSample 5, nodeSample 5] ∧
    ¬ ∀ (moments : List (TimePoint × Input)) (table : NodeTable),
      (∀ moment ∈ moments, ∀ other ∈ moment.2.ids,
        1 ≤ distance (nodeSample 1) other) →
      tableSample.run moments = some table →
      (table.snapshot.map NodeEntry.id).Nodup := by
  have twice : ((tableSample.run momentsSample).map fun table =>
      table.snapshot.map NodeEntry.id) =
        some [nodeSample 5, nodeSample 5] := by
    decide +kernel
  refine ⟨twice, ?_⟩
  intro claimed
  obtain ⟨table, ran, ids⟩ := Option.map_eq_some_iff.mp twice
  have nodup := claimed momentsSample table momentsSample_apart ran
  rw [ids] at nodup
  exact absurd nodup (by decide +kernel)

theorem momentsSample_spares :
    Throughout (fun table moment => Spares table moment.2) tableSample
      (momentsSample.take 2) := by
  constructor
  · intro id endpoint _ number found
    have noNode : tableSample.nodes.lookup id = none := by
      rw [AList.lookup_eq_none]
      exact AList.notMem_empty id
    rw [noNode] at found
    cases found
  · intro table _
    constructor
    · intro id endpoint impossible
      cases impossible
    · exact fun _ _ => trivial

/-- The same run without its last input. -/
theorem run_buckets_sample :
    ∃ table, tableSample.run (momentsSample.take 2) = some table ∧
      (∀ index, (table.state index).length ≤ s_bucketSize) ∧
      (∀ index, ∀ number ∈ table.state index, table.isLive number →
        distance (nodeSample 1) (table.entry number).id = index + 1) ∧
      (table.snapshot.map NodeEntry.id).Nodup := by
  have returns : (tableSample.run (momentsSample.take 2)).isSome := by
    decide +kernel
  obtain ⟨table, ran⟩ := Option.isSome_iff_exists.mp returns
  have apart : ∀ moment ∈ momentsSample.take 2, ∀ other ∈ moment.2.ids,
      1 ≤ distance (nodeSample 1) other := by
    decide +kernel
  obtain ⟨small, placed, nodup⟩ := run_buckets apart ran
  exact ⟨table, ran, small, placed, nodup momentsSample_spares⟩

end NodeTable

end Aecmio
