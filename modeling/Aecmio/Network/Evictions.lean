import Aecmio.Network.Buckets

/-!
# Evictions from full buckets

The least recently seen node of a full bucket is challenged by a new one.  A
pong decides for the old node only at a time before the challenge, so no pong
ever does; the check that comes too late for a pong drops the new node.
Neither takes the challenge out of the table.
-/

namespace Aecmio

namespace NodeTable

/-- A check of the evictions is to come. -/
def Scheduled (table : NodeTable) : Prop :=
  table.evictions.entries ≠ [] →
    ∃ timer ∈ table.timers, timer.task = .doCheckEvictions

/-- No challenge comes from the future. -/
def Past (now : TimePoint) (table : NodeTable) : Prop :=
  ∀ x eviction, table.evictions.lookup x = some eviction →
    eviction.evictedTimePoint ≤ now

/-! ## What a method does to the evictions -/

/-- Challenges stay as they are, new ones are made now, and timers are only
added. -/
structure Evolves (now : TimePoint) (table table' : NodeTable) : Prop where
  kept : ∀ x eviction, table.evictions.lookup x = some eviction →
    table'.evictions.lookup x = some eviction
  fresh : ∀ x eviction, table'.evictions.lookup x = some eviction →
    table.evictions.lookup x = some eviction ∨
      (table.evictions.lookup x = none ∧ eviction.evictedTimePoint = now)
  timers : ∃ added, table'.timers = table.timers ++ added
  scheduled : Scheduled table → Scheduled table'

variable {table table' table'' : NodeTable} {now : TimePoint} {id : NodeID}

namespace Evolves

/-- The challenges and the timers are the same. -/
theorem of_eq (evictions : table'.evictions = table.evictions)
    (timers : table'.timers = table.timers) : Evolves now table table' where
  kept x eviction found := by
    rw [evictions]
    exact found
  fresh x eviction found := by
    rw [evictions] at found
    exact .inl found
  timers := ⟨[], by rw [timers, List.append_nil]⟩
  scheduled scheduled := by
    rw [Scheduled, evictions, timers]
    exact scheduled

theorem trans (first : Evolves now table table')
    (second : Evolves now table' table'') : Evolves now table table'' where
  kept x eviction found := second.kept x eviction (first.kept x eviction found)
  fresh x eviction found := by
    cases second.fresh x eviction found with
    | inl found => exact first.fresh x eviction found
    | inr new =>
        obtain ⟨missing, time⟩ := new
        refine .inr ⟨?_, time⟩
        cases before : table.evictions.lookup x with
        | none => rfl
        | some other =>
            rw [first.kept x other before] at missing
            cases missing
  timers := by
    obtain ⟨added, first⟩ := first.timers
    obtain ⟨added', second⟩ := second.timers
    exact ⟨added ++ added', by rw [second, first, List.append_assoc]⟩
  scheduled scheduled := second.scheduled (first.scheduled scheduled)

theorem past (evolves : Evolves now table table') (past : Past now table) :
    Past now table' := by
  intro x eviction found
  cases evolves.fresh x eviction found with
  | inl old => exact past x eviction old
  | inr new => exact Nat.le_of_eq new.2

end Evolves

theorem evolves_schedule (delay : TimePoint) (task : Task) :
    Evolves now table (table.schedule now delay task) where
  kept _ _ found := found
  fresh _ _ found := .inl found
  timers := ⟨[⟨now + delay, task⟩], rfl⟩
  scheduled scheduled some_ := by
    obtain ⟨timer, member, task⟩ := scheduled some_
    exact ⟨timer, List.mem_append_left _ member, task⟩

theorem evolves_setEntry (number : Nat) (change : NodeEntry → NodeEntry) :
    Evolves now table (table.setEntry number change) :=
  .of_eq rfl rfl

theorem evolves_dropNode (number : Nat) :
    Evolves now table (table.dropNode number) :=
  .of_eq rfl rfl

theorem evolves_evict (leastSeen new : Nat) :
    Evolves now table (table.evict now leastSeen new) := by
  rw [evict]
  split
  · exact .of_eq rfl rfl
  · rw [challenge]
    split
    · -- the node has been challenged before
      simp only
      split
      · exact evolves_schedule _ _
      · exact .of_eq rfl rfl
    · next absent =>
        have kept : ∀ x eviction, table.evictions.lookup x = some eviction →
            (table.evictions.insert (table.entry leastSeen).id
              ⟨(table.entry new).id, now⟩).lookup x = some eviction := by
          intro x eviction found
          rw [AList.lookup_insert_ne]
          · exact found
          · intro same
            rw [← same, ← AList.lookup_isSome, found] at absent
            exact absent rfl
        have fresh : ∀ x eviction,
            (table.evictions.insert (table.entry leastSeen).id
              ⟨(table.entry new).id, now⟩).lookup x = some eviction →
            table.evictions.lookup x = some eviction ∨
              (table.evictions.lookup x = none ∧
                eviction.evictedTimePoint = now) := by
          intro x eviction found
          by_cases same : x = (table.entry leastSeen).id
          · rw [same, AList.lookup_insert] at found
            cases found
            refine .inr ⟨?_, rfl⟩
            rw [same]
            exact AList.lookup_eq_none.mpr absent
          · rw [AList.lookup_insert_ne same] at found
            exact .inl found
        simp only
        split
        · exact {
            kept
            fresh
            timers := ⟨_, rfl⟩
            scheduled := fun _ _ =>
              ⟨_, List.mem_append_right _ List.mem_cons_self, rfl⟩ }
        · next several =>
            refine ⟨kept, fresh, ⟨[], (List.append_nil _).symm⟩, ?_⟩
            intro scheduled _
            apply scheduled
            intro none
            apply several
            rw [AList.entries_insert_of_notMem absent, none]
            rfl

theorem evolves_noteActiveNode (id : NodeID) (endpoint : UdpEndpoint) :
    Evolves now table (table.noteActiveNode now id endpoint) := by
  rw [noteActiveNode]
  split
  · exact .of_eq rfl rfl
  · split
    · exact .of_eq rfl rfl
    · simp only
      split
      · exact .of_eq rfl rfl
      · generalize noted : table.setEntry _ _ = middle
        have same : Evolves now table middle := by
          rw [← noted]
          exact evolves_setEntry _ _
        apply same.trans
        split
        · exact .of_eq rfl rfl
        · split
          · exact .of_eq rfl rfl
          · split
            · exact .of_eq rfl rfl
            · split
              · exact evolves_evict _ _
              · exact .of_eq rfl rfl

section

variable [Hashing]

theorem evolves_addNode (endpoint : NodeIPEndpoint) (relation : NodeRelation) :
    Evolves now table (table.addNode now id endpoint relation) := by
  cases relation with
  | known =>
      have registered : Evolves now table (table.register id endpoint false) :=
        .of_eq rfl rfl
      exact registered.trans (evolves_noteActiveNode _ _)
  | unknown =>
      rw [addNode]
      split
      · exact .of_eq rfl rfl
      · split
        · exact .of_eq rfl rfl
        · split
          · exact .of_eq rfl rfl
          · exact .of_eq rfl rfl

theorem evolves_doDiscover (node : NodeID) (round : Nat) (tried : List Nat) :
    Evolves now table (table.doDiscover now node round tried) := by
  rw [doDiscover]
  split
  · exact .of_eq rfl rfl
  · split
    · exact evolves_schedule _ _
    · simp only
      generalize noted : NodeTable.mk _ _ _ _ _ _ _ _ _ _ _ _ = middle
      have same : Evolves now table middle := by
        rw [← noted]
        exact .of_eq rfl rfl
      apply same.trans
      split
      · exact evolves_schedule _ _
      · exact evolves_schedule _ _

omit [Hashing] in
theorem evolves_foldl {α : Type} {method : NodeTable → α → NodeTable}
    (each : ∀ table input, Evolves now table (method table input))
    (inputs : List α) : Evolves now table (inputs.foldl method table) := by
  induction inputs generalizing table with
  | nil => exact .of_eq rfl rfl
  | cons input inputs induction => exact (each table input).trans induction

omit [Hashing] in
theorem evolves_checkEvictions :
    Evolves now table (table.checkEvictions now) := by
  rw [checkEvictions]
  have dropped := @evolves_foldl table now Nat dropNode
    fun _ number => evolves_dropNode number
  split
  · exact (dropped _).trans (evolves_schedule _ _)
  · exact dropped _

theorem evolves_onPong {source : UdpEndpoint} {destination : NodeIPEndpoint}
    (past : Past now table)
    (received : table.onPong now source id destination = some table') :
    Evolves now table table' := by
  rw [onPong] at received
  obtain ⟨middle, decided, rfl⟩ := Option.map_eq_some_iff.mp received
  have evolves : Evolves now table middle := by
    split at decided
    · next eviction found =>
        -- the time of a challenge is never after now
        obtain ⟨found, after⟩ := Option.filter_eq_some_iff.mp found
        have before := past id eviction found
        exact absurd (of_decide_eq_true after) (Nat.not_lt.mpr before)
    · rw [welcome] at decided
      split at decided
      · cases decided
        exact evolves_setEntry _ _
      · split at decided
        · cases decided
        · generalize noted : NodeTable.mk _ _ _ _ _ _ _ _ _ _ _ _ = other
            at decided
          have same : Evolves now table other := by
            rw [← noted]
            exact .of_eq rfl rfl
          cases decided
          apply same.trans
          split
          · exact .of_eq rfl rfl
          · exact evolves_addNode _ _
  exact evolves.trans (.of_eq rfl rfl)

theorem evolves_onReceived (seconds : UInt32) (source : UdpEndpoint)
    (packet : DiscoveryDatagram) (past : Past now table) :
    Evolves now table (table.onReceived now seconds source packet) := by
  rw [onReceived]
  split
  · exact .of_eq rfl rfl
  · split
    · split
      · exact .of_eq rfl rfl
      · next received =>
          exact (evolves_onPong past received).trans
            (evolves_noteActiveNode _ _)
    · refine Evolves.trans ?_ (evolves_noteActiveNode _ _)
      rw [onNeighbours]
      generalize noted : NodeTable.mk _ _ _ _ _ _ _ _ _ _ _ _ = middle
      have same : Evolves now table middle := by
        rw [← noted]
        exact .of_eq rfl rfl
      apply same.trans
      split
      · exact .of_eq rfl rfl
      · exact evolves_foldl (fun _ _ => evolves_addNode _ _) _
    · exact evolves_noteActiveNode _ _
    · exact (evolves_addNode _ _).trans (evolves_noteActiveNode _ _)

theorem evolves_perform (randNodeId : NodeID) (task : Task) :
    Evolves now table (table.perform now randNodeId task) := by
  cases task with
  | doCheckEvictions => exact evolves_checkEvictions
  | doDiscovery => exact evolves_doDiscover _ _ _
  | doDiscover node round tried => exact evolves_doDiscover _ _ _

/-! ## Decisions -/

omit [Hashing] in
/-- A pong of a node that is not refused for its time. -/
def IsPong (input : Input) (x : NodeID) : Prop :=
  ∃ seconds source packet pong, input = .onReceived seconds source packet ∧
    packet.sourceid = x ∧ packet.packet = .pong pong ∧ ¬ packet.ts < seconds

/-- The timer of a check fires. -/
def IsCheck (table : NodeTable) (input : Input) : Prop :=
  ∃ position randNodeId timer, input = .fire position randNodeId ∧
    table.timers[position]? = some timer ∧ timer.task = .doCheckEvictions

/-- The node answers a challenge of some time before it is too late. -/
structure InTime (time now : TimePoint) (input : Input) (x : NodeID) :
    Prop where
  isPong : IsPong input x
  inTime : now ≤ time + c_reqTimeout

/-- The check comes too late for a pong. -/
structure Late (time now : TimePoint) (table : NodeTable) (input : Input) :
    Prop where
  isCheck : IsCheck table input
  late : time + c_reqTimeout < now

/-- No challenge is decided by an input: a challenged node does not answer in
time, and no check comes too late for an answer. -/
def Undecided (table : NodeTable) (moment : TimePoint × Input) : Prop :=
  ∀ x eviction, table.evictions.lookup x = some eviction →
    ¬ InTime eviction.evictedTimePoint moment.1 moment.2 x ∧
    ¬ Late eviction.evictedTimePoint moment.1 table moment.2

/-- A step changes the evictions as a method does. -/
theorem step_evolves {input : Input} (past : Past now table)
    (stepped : table.step now input = some table') :
    ∃ middle, Evolves now table middle ∧
      table'.evictions = middle.evictions := by
  cases input with
  | addNode id endpoint relation =>
      cases stepped
      exact ⟨_, evolves_addNode _ _, rfl⟩
  | noteActiveNode id endpoint =>
      cases stepped
      exact ⟨_, evolves_noteActiveNode _ _, rfl⟩
  | dropNode number =>
      rw [step] at stepped
      split at stepped
      · cases stepped
        exact ⟨_, evolves_dropNode number, rfl⟩
      · cases stepped
  | onReceived seconds source packet =>
      cases stepped
      exact ⟨_, evolves_onReceived _ _ _ past, rfl⟩
  | fire position randNodeId =>
      rw [step] at stepped
      split at stepped
      · next timer found =>
          split at stepped
          · cases stepped
            exact ⟨_, evolves_perform randNodeId timer.task, rfl⟩
          · cases stepped
      · cases stepped
  | disconnect =>
      cases stepped
      exact ⟨table, .of_eq rfl rfl, rfl⟩

omit [Hashing] in
theorem mem_entries_iff {x : NodeID} {eviction : EvictionTimeout} :
    ⟨x, eviction⟩ ∈ table.evictions.entries ↔
      table.evictions.lookup x = some eviction :=
  AList.mem_lookup_iff.symm

omit [Hashing] in
/-- A check that is not late for any challenge only schedules another one. -/
theorem checkEvictions_eq
    (early : ∀ x eviction, table.evictions.lookup x = some eviction →
      ¬ eviction.evictedTimePoint + c_reqTimeout < now) :
    table.checkEvictions now =
      if 0 < table.evictions.entries.length then table.doCheckEvictions now
      else table := by
  have none : (table.evictions.entries.filterMap fun eviction =>
      if eviction.2.evictedTimePoint + c_reqTimeout < now then
        table.nodes.lookup eviction.2.newNodeID
      else none) = [] := by
    rw [List.filterMap_eq_nil_iff]
    intro entry member
    exact if_neg (early entry.1 entry.2 (mem_entries_iff.mp member))
  rw [checkEvictions, none]
  rfl

omit [Hashing] in
/-- A timer stays that is not at the place of the one that fires. -/
theorem mem_eraseIdx {timers : List Timer} {position other : Nat}
    {timer : Timer} (found : timers[other]? = some timer)
    (different : other ≠ position) : timer ∈ timers.eraseIdx position := by
  obtain ⟨inside, same⟩ := List.getElem?_eq_some_iff.mp found
  exact List.mem_eraseIdx_iff_getElem.mpr ⟨other, inside, different, same⟩

/-- A timer that fires and decides nothing leaves a check scheduled. -/
theorem fire_scheduled {position : Nat} {randNodeId : NodeID} {timer : Timer}
    (undecided : Undecided table (now, .fire position randNodeId))
    (scheduled : Scheduled table)
    (found : table.timers[position]? = some timer) :
    Scheduled { table.perform now randNodeId timer.task with
      timers := (table.perform now randNodeId timer.task).timers.eraseIdx
        position } := by
  have inside := (List.getElem?_eq_some_iff.mp found).1
  intro some_
  by_cases isCheck : timer.task = .doCheckEvictions
  · have early : ∀ x eviction,
        table.evictions.lookup x = some eviction →
        ¬ eviction.evictedTimePoint + c_reqTimeout < now := by
      intro x eviction challenged late
      exact (undecided x eviction challenged).2
        ⟨⟨position, randNodeId, timer, rfl, found, isCheck⟩, late⟩
    have checked := checkEvictions_eq early
    rw [isCheck, perform, checked] at some_ ⊢
    have nonempty : 0 < table.evictions.entries.length := by
      apply List.length_pos_iff.mpr
      intro none
      apply some_
      rw [none]
      exact none
    rw [if_pos nonempty]
    refine ⟨⟨now + c_evictionCheckInterval, .doCheckEvictions⟩, ?_, rfl⟩
    apply @mem_eraseIdx _ _ table.timers.length
    · exact List.getElem?_concat_length
    · exact Nat.ne_of_gt inside
  · have evolves := @evolves_perform table now _ randNodeId timer.task
    obtain ⟨check, member, task⟩ := evolves.scheduled scheduled some_
    obtain ⟨added, timers⟩ := evolves.timers
    obtain ⟨other, listed⟩ := List.getElem?_of_mem member
    refine ⟨check, ?_, task⟩
    apply mem_eraseIdx listed
    intro same
    rw [same, timers, List.getElem?_append_left inside, found] at listed
    cases listed
    exact isCheck task

/-- A step that decides nothing leaves a check scheduled. -/
theorem step_scheduled {input : Input} (past : Past now table)
    (undecided : Undecided table (now, input)) (scheduled : Scheduled table)
    (stepped : table.step now input = some table') : Scheduled table' := by
  cases input with
  | addNode id endpoint relation =>
      cases stepped
      exact (evolves_addNode _ _).scheduled scheduled
  | noteActiveNode id endpoint =>
      cases stepped
      exact (evolves_noteActiveNode _ _).scheduled scheduled
  | dropNode number =>
      rw [step] at stepped
      split at stepped
      · cases stepped
        exact scheduled
      · cases stepped
  | onReceived seconds source packet =>
      cases stepped
      exact (evolves_onReceived _ _ _ past).scheduled scheduled
  | fire position randNodeId =>
      rw [step] at stepped
      cases found : table.timers[position]? with
      | none =>
          rw [found] at stepped
          cases stepped
      | some timer =>
          rw [found] at stepped
          simp only at stepped
          split at stepped
          · cases stepped
            exact fire_scheduled undecided scheduled found
          · cases stepped
  | disconnect =>
      cases stepped
      exact scheduled

/-! ## Runs -/

section

variable {input : Input} {moments front back : List (TimePoint × Input)}

/-- The inputs come in the order of time, after all challenges. -/
structure Ordered (table : NodeTable) (moments : List (TimePoint × Input)) :
    Prop where
  times : moments.Pairwise fun one other => one.1 ≤ other.1
  past : ∀ moment ∈ moments, Past moment.1 table

namespace Ordered

omit [Hashing] in
theorem head (ordered : Ordered table ((now, input) :: moments)) :
    Past now table :=
  ordered.past _ List.mem_cons_self

theorem next (ordered : Ordered table ((now, input) :: moments))
    (stepped : table.step now input = some table') :
    Ordered table' moments where
  times := ordered.times.of_cons
  past moment member x eviction found := by
    obtain ⟨middle, evolves, evictions⟩ := step_evolves ordered.head stepped
    have later := List.rel_of_pairwise_cons ordered.times member
    rw [evictions] at found
    exact (evolves.past ordered.head x eviction found).trans later

theorem after (ordered : Ordered table (front ++ back))
    (ran : table.run front = some table') : Ordered table' back := by
  induction front generalizing table with
  | nil =>
      cases ran
      exact ordered
  | cons moment front induction =>
      obtain ⟨middle, stepped, ran⟩ := Runs.run_cons.mp ran
      exact induction (ordered.next stepped) ran

theorem before (ordered : Ordered table (front ++ back)) :
    Ordered table front where
  times := (List.pairwise_append.mp ordered.times).1
  past moment member := ordered.past moment (List.mem_append_left _ member)

end Ordered

variable {x : NodeID} {eviction : EvictionTimeout}

theorem step_kept (past : Past now table)
    (stepped : table.step now input = some table')
    (found : table.evictions.lookup x = some eviction) :
    table'.evictions.lookup x = some eviction := by
  obtain ⟨middle, evolves, evictions⟩ := step_evolves past stepped
  rw [evictions]
  exact evolves.kept x eviction found

/-- No challenge is ever taken out. -/
theorem run_kept (ordered : Ordered table moments)
    (ran : table.run moments = some table')
    (found : table.evictions.lookup x = some eviction) :
    table'.evictions.lookup x = some eviction := by
  induction moments generalizing table with
  | nil =>
      cases ran
      exact found
  | cons moment moments induction =>
      obtain ⟨middle, stepped, ran⟩ := Runs.run_cons.mp ran
      exact induction (ordered.next stepped) ran
        (step_kept ordered.head stepped found)

/-- A challenge was made in a step, at its time. -/
theorem run_origin (ordered : Ordered table moments)
    (ran : table.run moments = some table')
    (found : table'.evictions.lookup x = some eviction)
    (missing : table.evictions.lookup x = none) :
    ∃ before input middle start next,
      moments = before ++ (eviction.evictedTimePoint, input) :: middle ∧
      table.run before = some start ∧
      start.step eviction.evictedTimePoint input = some next ∧
      next.run middle = some table' ∧ start.evictions.lookup x = none ∧
      next.evictions.lookup x = some eviction := by
  induction moments generalizing table with
  | nil =>
      cases ran
      rw [missing] at found
      cases found
  | cons moment moments induction =>
      obtain ⟨now, input⟩ := moment
      obtain ⟨next, stepped, others⟩ := Runs.run_cons.mp ran
      cases challenged : next.evictions.lookup x with
      | none =>
          obtain ⟨before, input', middle, start, next', split, ran', stepped',
            rest, missing', found'⟩ :=
              induction (ordered.next stepped) others challenged
          refine ⟨(now, input) :: before, input', middle, start, next', ?_,
            Runs.run_cons.mpr ⟨next, stepped, ran'⟩, stepped', rest, missing',
            found'⟩
          rw [split, List.cons_append]
      | some other =>
          have same := run_kept (ordered.next stepped) others challenged
          rw [found] at same
          cases same
          obtain ⟨evolved, evolves, evictions⟩ :=
            step_evolves ordered.head stepped
          rw [evictions] at challenged
          cases evolves.fresh x eviction challenged with
          | inl old =>
              rw [missing] at old
              cases old
          | inr new =>
              cases new.2
              rw [← evictions] at challenged
              exact ⟨[], input, moments, table, next, rfl, rfl, stepped, others,
                missing, challenged⟩

/-- A challenge is not decided in a run that decides nothing. -/
theorem undecided_middle
    (ordered : Ordered table (front ++ (now, input) :: back))
    (undecided : Throughout Undecided table (front ++ (now, input) :: back))
    (ran : table.run front = some table')
    (found : table.evictions.lookup x = some eviction) :
    ¬ InTime eviction.evictedTimePoint now input x ∧
      ¬ Late eviction.evictedTimePoint now table' input :=
  undecided.here ran x eviction (run_kept ordered.before ran found)

theorem run_scheduled (ordered : Ordered table moments)
    (undecided : Throughout Undecided table moments)
    (scheduled : Scheduled table) (ran : table.run moments = some table') :
    Scheduled table' := by
  induction moments generalizing table with
  | nil =>
      cases ran
      exact scheduled
  | cons moment moments induction =>
      obtain ⟨middle, stepped, ran⟩ := Runs.run_cons.mp ran
      exact induction (ordered.next stepped) (undecided.2 middle stepped)
        (step_scheduled ordered.head undecided.1 scheduled stepped) ran

end

/-! ## Live nodes are favoured -/

omit [Hashing] in
/-- A live entry of the node is in a bucket. -/
def InBucket (table : NodeTable) (x : NodeID) : Prop :=
  ∃ index, ∃ number ∈ table.state index,
    table.isLive number ∧ (table.entry number).id = x

/-- A challenge of `x` by `y` at a time, in the step from one table to the
next. -/
structure Challenge (start next : NodeTable) (time : TimePoint)
    (x y : NodeID) : Prop where
  missing : start.evictions.lookup x = none
  found : next.evictions.lookup x = some ⟨y, time⟩

/-- What evictions are for: of every challenge in the run, the first pong in
time keeps the old node in its bucket and the new one out; if there is none,
the first check that is late replaces the old node by the new one; either way
the challenge is over.  As long as there are challenges, a check is to come. -/
structure FavoursLive (table : NodeTable)
    (moments : List (TimePoint × Input)) : Prop where
  pong : ∀ before time challenge middle now input after start next last last'
      x y, moments =
        before ++ (time, challenge) :: (middle ++ (now, input) :: after) →
    table.run before = some start → start.step time challenge = some next →
    next.run middle = some last → last.step now input = some last' →
    Challenge start next time x y →
    (∀ moment ∈ middle, ¬ InTime time moment.1 moment.2 x) →
    InTime time now input x →
    (last.InBucket x → last'.InBucket x) ∧
      (last'.InBucket y → last.InBucket y) ∧
      last'.evictions.lookup x = none
  check : ∀ before time challenge middle now input after start next last last'
      x y, moments =
        before ++ (time, challenge) :: (middle ++ (now, input) :: after) →
    table.run before = some start → start.step time challenge = some next →
    next.run middle = some last → last.step now input = some last' →
    Challenge start next time x y →
    (∀ moment ∈ middle, ¬ InTime time moment.1 moment.2 x) →
    (∀ front now input back table, middle = front ++ (now, input) :: back →
      next.run front = some table → ¬ Late time now table input) →
    Late time now last input →
    ¬ last'.InBucket x ∧ last'.InBucket y ∧
      last'.evictions.lookup x = none
  scheduled : ∀ front back reached, moments = front ++ back →
    table.run front = some reached → Scheduled reached

/-- Evictions do what they are for exactly as long as nothing is decided. -/
theorem favoursLive_iff {id : NodeID} {endpoint : NodeIPEndpoint}
    {allowLocal isOpen : Bool} {started : TimePoint}
    {moments : List (TimePoint × Input)} {reached : NodeTable}
    (times : moments.Pairwise fun one other => one.1 ≤ other.1)
    (ran : (construct id endpoint allowLocal isOpen started).run moments =
      some reached) :
    FavoursLive (construct id endpoint allowLocal isOpen started) moments ↔
      Throughout Undecided (construct id endpoint allowLocal isOpen started)
        moments := by
  have nothing : (construct id endpoint allowLocal isOpen started).evictions =
      ∅ := by
    rw [construct]
    split
    · rfl
    · rfl
  generalize construct id endpoint allowLocal isOpen started = table at *
  have missing : ∀ x, table.evictions.lookup x = none := by
    intro x
    rw [nothing, AList.lookup_empty]
  have ordered : Ordered table moments := by
    refine ⟨times, ?_⟩
    intro moment _ x eviction found
    rw [missing] at found
    cases found
  constructor
  · intro favours
    by_contra decided
    -- the first step that decides a challenge
    obtain ⟨front, ⟨now, input⟩, back, last, last', split, ranFront, stepped,
      violated, before⟩ := Runs.Throughout.exists_first decided ran
    rw [split] at ordered
    have past := (ordered.after ranFront).head
    have decides : ∃ x eviction, last.evictions.lookup x = some eviction ∧
        (InTime eviction.evictedTimePoint now input x ∨
          Late eviction.evictedTimePoint now last input) := by
      by_contra none
      apply violated
      intro x eviction found
      exact ⟨fun inTime => none ⟨x, eviction, found, .inl inTime⟩,
        fun late => none ⟨x, eviction, found, .inr late⟩⟩
    obtain ⟨x, ⟨y, time⟩, challenged, decides⟩ := decides
    have kept := step_kept past stepped challenged
    -- the step that made the challenge, and no decision since
    obtain ⟨early, challenge, middle, start, next, splitFront, ranEarly, made,
      ranMiddle, missing', found⟩ :=
        run_origin ordered.before ranFront challenged (missing x)
    rw [splitFront] at ordered before
    have orderedMiddle := (ordered.before.after ranEarly).next made
    have undecided := (before.after ranEarly).2 next made
    have split' : moments =
        early ++ (time, challenge) :: (middle ++ (now, input) :: back) := by
      rw [split, splitFront, List.append_assoc, List.cons_append]
    have inTime : ∀ moment ∈ middle, ¬ InTime time moment.1 moment.2 x := by
      intro moment member
      obtain ⟨one, other, splitMiddle⟩ := List.append_of_mem member
      rw [splitMiddle] at undecided orderedMiddle ranMiddle
      obtain ⟨table', ranOne, -⟩ := Runs.run_append.mp ranMiddle
      exact (undecided_middle orderedMiddle undecided ranOne found).1
    have late : ∀ one now input other table', middle =
        one ++ (now, input) :: other → next.run one = some table' →
        ¬ Late time now table' input := by
      intro one now input other table' splitMiddle ranOne
      rw [splitMiddle] at undecided orderedMiddle
      exact (undecided_middle orderedMiddle undecided ranOne found).2
    have over_ : last'.evictions.lookup x = none := by
      cases decides with
      | inl pong =>
          exact (favours.pong early time challenge middle now input back start
            next last last' x y split' ranEarly made ranMiddle stepped
            ⟨missing', found⟩ inTime pong).2.2
      | inr check =>
          exact (favours.check early time challenge middle now input back start
            next last last' x y split' ranEarly made ranMiddle stepped
            ⟨missing', found⟩ inTime late check).2.2
    rw [kept] at over_
    cases over_
  · intro undecided
    have never : ∀ before time challenge middle now input after start next last
        x y, moments =
          before ++ (time, challenge) :: (middle ++ (now, input) :: after) →
        table.run before = some start →
        start.step time challenge = some next →
        next.run middle = some last → Challenge start next time x y →
        ¬ InTime time now input x ∧ ¬ Late time now last input := by
      intro before time challenge middle now input after start next last x y
        split ranBefore made ranMiddle challenged
      rw [split] at undecided ordered
      exact undecided_middle ((ordered.after ranBefore).next made)
        ((undecided.after ranBefore).2 next made) ranMiddle
        challenged.found
    constructor
    · intro before time challenge middle now input after start next last last'
        x y split ranBefore made ranMiddle _ challenged _ pong
      exact absurd pong (never before time challenge middle now input after
        start next last x y split ranBefore made ranMiddle challenged).1
    · intro before time challenge middle now input after start next last last'
        x y split ranBefore made ranMiddle _ challenged _ _ check
      exact absurd check (never before time challenge middle now input after
        start next last x y split ranBefore made ranMiddle challenged).2
    · intro front back reached split ranFront
      rw [split] at undecided ordered
      apply run_scheduled ordered.before undecided.before ?_
        ranFront
      intro some_
      rw [nothing] at some_
      exact absurd rfl some_

end

/-! ## A challenge -/

attribute [local instance] tableSampleHashing

/-- A bucket is filled. -/
def fullSample : List (TimePoint × Input) :=
  (List.range 16).map fun position =>
    (0, .addNode (nodeSample (32 + position))
      (endpointSample (UInt8.ofNat position)) .known)

/-- One more node of the same bucket, which challenges the first one. -/
def challengeSample : TimePoint × Input :=
  (0, .addNode (nodeSample 48) (endpointSample 48) .known)

/-- The first one answers. -/
def pongSample : TimePoint × Input :=
  (100, .onReceived 0 (endpointSample 0).toUdp
    { sourceid := nodeSample 32, ts := 1, packet := .pong ⟨endpointSample 1⟩ })

/-- A check that comes too late. -/
def checkSample : TimePoint × Input := (400, .fire 1 (nodeSample 1))

/-- What is in the table once the bucket is full, after the challenge, after
the pong and, in its place, after the check. -/
theorem challenge_observed :
    ((tableSample.run fullSample).bind fun full =>
      (full.run [challengeSample]).bind fun challenged =>
        (challenged.run [pongSample]).bind fun answered =>
          (challenged.run [checkSample]).map fun checked =>
            ([full, challenged, answered].map fun table =>
                table.evictions.lookup (nodeSample 32),
              (checked.state 4).map fun number => (checked.entry number).id,
              checked.evictions.lookup (nodeSample 32),
              checked.timers.length)) =
      some ([none, some ⟨nodeSample 48, 0⟩, some ⟨nodeSample 48, 0⟩],
        (List.range 16).map fun position => nodeSample (32 + position),
        some ⟨nodeSample 48, 0⟩, 1) := by
  decide +kernel

/-- The challenge is still there after the pong, or after the check, which
drops the new node, leaves the old one where it is and schedules no other
check. -/
theorem favoursLive_fails :
    ¬ FavoursLive tableSample (fullSample ++ [challengeSample, pongSample]) ∧
    ((tableSample.run (fullSample ++ [challengeSample, checkSample])).map
      fun table => ((table.state 4).map fun number => (table.entry number).id,
        table.evictions.lookup (nodeSample 32), table.timers.length)) =
      some ((List.range 16).map fun position => nodeSample (32 + position),
        some ⟨nodeSample 48, 0⟩, 1) := by
  obtain ⟨start, ranFull, rest⟩ :=
    Option.bind_eq_some_iff.mp challenge_observed
  obtain ⟨next, ranOne, rest⟩ := Option.bind_eq_some_iff.mp rest
  obtain ⟨last', ranTwo, rest⟩ := Option.bind_eq_some_iff.mp rest
  obtain ⟨checked, ranCheck, seen⟩ := Option.map_eq_some_iff.mp rest
  obtain ⟨lookups, dropped⟩ := Prod.mk.inj seen
  simp only [List.map_cons, List.map_nil, List.cons.injEq, and_true] at lookups
  obtain ⟨full, challenged, answered⟩ := lookups
  have ran : tableSample.run (fullSample ++ [challengeSample]) = some next :=
    Runs.run_append.mpr ⟨start, ranFull, ranOne⟩
  constructor
  · intro favours
    obtain ⟨_, stepped, done⟩ := Runs.run_cons.mp ranOne
    cases done
    obtain ⟨_, stepped', done⟩ := Runs.run_cons.mp ranTwo
    cases done
    have gone := (favours.pong fullSample 0 challengeSample.2 [] 100
      pongSample.2 [] start next next last' (nodeSample 32) (nodeSample 48) rfl
      ranFull stepped rfl stepped' ⟨full, challenged⟩
      (fun _ member => nomatch member)
      ⟨⟨0, _, _, _, rfl, rfl, rfl, by decide⟩, by decide⟩).2.2
    rw [answered] at gone
    cases gone
  · have ranBoth : tableSample.run
        ((fullSample ++ [challengeSample]) ++ [checkSample]) = some checked :=
      Runs.run_append.mpr ⟨next, ran, ranCheck⟩
    rw [List.append_assoc] at ranBoth
    change tableSample.run (fullSample ++ [challengeSample, checkSample]) =
      some checked at ranBoth
    rw [ranBoth, Option.map_some, dropped]

theorem favoursLive_iff_sample :
    FavoursLive tableSample (fullSample ++ [challengeSample, pongSample]) ↔
      Throughout Undecided tableSample
        (fullSample ++ [challengeSample, pongSample]) := by
  have returns : (tableSample.run
      (fullSample ++ [challengeSample, pongSample])).isSome := by
    decide +kernel
  obtain ⟨reached, ran⟩ := Option.isSome_iff_exists.mp returns
  have times : (fullSample ++ [challengeSample, pongSample]).Pairwise
      fun one other => one.1 ≤ other.1 := by
    decide +kernel
  exact favoursLive_iff times ran

end NodeTable

end Aecmio
