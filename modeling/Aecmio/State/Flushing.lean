import Aecmio.State.Restoring

/-!
# Dirty accounts and the trie

The dirty mark decides what eviction may drop and what `commit` writes.  An
account that differs from the trie is dirty, a commit changes no answer, and
rolled back changes leave no trace in the root.  Each of these needs the
callers to avoid the methods that do not mark, or do not unmark, an account.
-/

namespace Aecmio

open Traced

section

variable [Hashing] {state state' start : State} {calls : List Call}

/-! ## No update is lost -/

/-- The account is not what the trie holds for the address. -/
def Differs (state : State) (addr : Address) (account : Account) : Prop :=
  match state.stored addr with
  | none => True
  | some original => account.nonce ≠ original.nonce ∨
      account.balance ≠ original.balance ∨
      (∃ key, account.value state.db key ≠ original.value state.db key) ∨
      account.codeOf state.db ≠ original.codeOf state.db

theorem Coherent.dirty_of_differs (coherent : Coherent state)
    {addr : Address} {account : Account}
    (found : state.cache.lookup addr = some account)
    (differs : Differs state addr account) : account.isDirty = true := by
  by_contra clean
  have unchanged : account.isUnchanged = true := by
    simpa [Account.isDirty] using clean
  have sound := coherent.sound addr
  rw [found] at sound
  obtain ⟨original, stored, alike⟩ := SoundLog.clean sound unchanged
  unfold Differs at differs
  rw [stored] at differs
  rcases differs with nonce | balance | ⟨key, value⟩ | code
  · exact nonce alike.nonce
  · exact balance alike.balance
  · exact value (alike.value key (by simp))
  · exact code alike.code

omit [Hashing] in
theorem lookup_evict_dirty {addr : Address} {account : Account}
    (found : state.cache.lookup addr = some account)
    (dirty : account.isDirty = true) :
    state.evict.cache.lookup addr = some account := by
  unfold State.evict
  dsimp only
  generalize state.unchangedCacheEntries.getD _ _ = chosen
  cases other : state.cache.lookup chosen with
  | none => exact found
  | some candidate =>
      dsimp only
      split
      · rename_i clean
        have different : addr ≠ chosen := by
          intro same
          subst same
          obtain rfl := Option.some.inj (found.symm.trans other)
          simp [dirty] at clean
        rw [AList.lookup_erase_ne different, found]
      · exact found

omit [Hashing] in
theorem lookup_clearCacheIfTooLarge_dirty {addr : Address}
    {account : Account} (found : state.cache.lookup addr = some account)
    (dirty : account.isDirty = true) :
    state.clearCacheIfTooLarge.cache.lookup addr = some account := by
  have loop : ∀ rounds, ∀ state : State,
      state.cache.lookup addr = some account →
        (State.clearCacheLoop rounds state).cache.lookup addr =
          some account := by
    intro rounds
    induction rounds with
    | zero =>
        intro state found
        exact found
    | succ rounds induction =>
        intro state found
        unfold State.clearCacheLoop
        split
        · exact induction _ (lookup_evict_dirty found dirty)
        · exact found
  exact loop _ state found

/-- In every state that a careful run reaches, an account that differs from
the trie is dirty: it stays in the cache, and a commit writes it. -/
theorem differing_account_dirty (opening : State) (opened : Opened opening)
    (calls : List Call) (careful : Along Careful opening calls)
    (collisionless : Along Collisionless opening calls) (addr : Address)
    (account : Account)
    (found : (after calls opening).cache.lookup addr = some account)
    (differs : Differs (after calls opening) addr account) :
    account.isDirty = true ∧
      (after calls opening).clearCacheIfTooLarge.cache.lookup addr =
        some account ∧
      ∃ written, (State.commit .keepEmptyAccounts).run
          (after calls opening) = .ok () written ∧
        (written.db.Injective →
          if account.isAlive then ∃ fields : AccountFields,
            written.trie.lookup addr.val = some fields.encoding ∧
              Written (after calls opening).db written.db account fields
          else written.trie.lookup addr.val = none) := by
  have coherent := opened.coherent.after careful collisionless
  have dirty := coherent.dirty_of_differs found differs
  obtain ⟨written, ran, committed⟩ :=
    run_commit coherent .keepEmptyAccounts
  refine ⟨dirty, lookup_clearCacheIfTooLarge_dirty found dirty, written, ran,
    ?_⟩
  intro injective
  have outcome := committed.outcome injective addr account found
  have marked : account.isUnchanged = false := by
    simpa [Account.isDirty] using dirty
  have same : swept .keepEmptyAccounts account = account := by
    simp [swept]
  rw [same] at outcome
  unfold Outcome at outcome
  rw [marked] at outcome
  cases alive : account.isAlive with
  | false => simpa [alive] using outcome
  | true => simpa [alive] using outcome

end

section Sample

attribute [local instance] sampleHashing

/-- What the trie holds while nothing is committed. -/
theorem stored_sample {state : State} (trie : state.trie = sampleTrie) :
    state.stored sampleAddress =
      some (.stored ⟨0, 0, sampleSlotsRoot, sampleEmptyHash⟩) := by
  have found : state.trie.lookup sampleAddress.val = some
      (AccountFields.encoding ⟨0, 0, sampleSlotsRoot, sampleEmptyHash⟩) := by
    rw [trie]
    exact Finmap.lookup_singleton_eq
  simp [State.stored, found, AccountFields.accountFields_encoding]

theorem differing_account_dirty_sample :
    let state := after [.addBalance sampleAddress 5,
      .setCode sampleAddress [0]] sampleState
    (state.cacheAt sampleAddress).isDirty = true := by
  refine (differing_account_dirty sampleState sampleState_opened
    [.addBalance sampleAddress 5, .setCode sampleAddress [0]] ?_ ?_
    sampleAddress _ rfl ?_).1
  · refine ⟨trivial, ?_, trivial⟩
    intro account found
    have here := Option.some.inj found
    subst here
    decide +kernel
  · exact ⟨⟨by decide +kernel, by decide +kernel⟩,
      ⟨by decide +kernel, by decide +kernel⟩, trivial⟩
  · unfold Differs
    rw [stored_sample (by decide +kernel)]
    exact .inr (.inl (by decide +kernel))

/-- The code of a clean account is replaced and the account is still clean:
the commit does not write it. -/
theorem differing_account_clean :
    let state := after [.setCode sampleAddress [0]] sampleState
    (∃ account, state.cache.lookup sampleAddress = some account ∧
      Differs state sampleAddress account ∧ account.isDirty = false) ∧
    State.reading (State.code sampleAddress) state = .ok [0] ∧
    State.reading (State.code sampleAddress)
      (final (State.commit .keepEmptyAccounts) state) = .ok [] := by
  intro state
  refine ⟨⟨_, rfl, ?_, by decide +kernel⟩, by decide +kernel,
    by decide +kernel⟩
  unfold Differs
  rw [stored_sample (by decide +kernel)]
  exact .inr (.inr (.inr (by decide +kernel)))

end Sample

/-! ## A commit changes no answer -/

section

variable [Hashing] {state state' start : State} {calls : List Call}

/-- A run that ends in a commit, or has not begun. -/
def Settled (history : List Call) : Prop :=
  history = [] ∨ ∃ earlier behaviour, history = earlier ++ [.commit behaviour]

theorem Along.append_left {condition : State → Call → Prop}
    {first second : List Call}
    (along : Along condition state (first ++ second)) :
    Along condition state first := by
  induction first generalizing state with
  | nil => trivial
  | cons call calls induction => exact ⟨along.1, induction along.2⟩

theorem after_append (first second : List Call) (state : State) :
    after (first ++ second) state = after second (after first state) :=
  List.foldl_append

/-- A settled run leaves nothing in the cache or in the log. -/
theorem Settled.fresh {opening : State} (opened : Opened opening)
    {history : List Call} (careful : Along Careful opening history)
    (collisionless : Along Collisionless opening history)
    (settled : Settled history) :
    (after history opening).cache = ∅ ∧
      (after history opening).changeLog = [] := by
  rcases settled with rfl | ⟨earlier, behaviour, rfl⟩
  · exact ⟨opened.cache, opened.changeLog⟩
  · have coherent := opened.coherent.after careful.append_left
      collisionless.append_left
    obtain ⟨state', ran, committed⟩ := run_commit coherent behaviour
    have last : after (earlier ++ [.commit behaviour]) opening = state' := by
      rw [after_append]
      simp [after, final, Call.run] at ran ⊢
      rw [ran]
    rw [last]
    exact ⟨committed.cache, committed.changeLog⟩

/-- The calls before a commit: as between a savepoint and its rollback, but
without rollbacks. -/
def Recorded (state : State) (call : Call) : Prop :=
  Journalled 0 state call ∧ ∀ savepoint, call ≠ .rollback savepoint

/-- No account in the cache is dead. -/
def AllAlive (state : State) : Prop :=
  ∀ addr account, state.cache.lookup addr = some account →
    account.isAlive = true

theorem Coherent.stored_alive (coherent : Coherent state) {addr : Address}
    {original : Account} (stored : state.stored addr = some original) :
    original.isAlive = true := by
  rcases coherent.complete.stored addr with ⟨_, absent⟩ |
    ⟨fields, _, present, _, _⟩
  · rw [absent] at stored
    cases stored
  · obtain rfl := Option.some.inj (present.symm.trans stored)
    rfl

theorem AllAlive.quiet (alive : AllAlive state) (coherent : Coherent state)
    (quiet : Quiet state state') : AllAlive state' := by
  intro addr account found
  have alike := coherent.seenAlike quiet addr
  have here : state'.seen addr = some account := by
    simp [State.seen, found]
  rw [here] at alike
  generalize before : state.seen addr = seen at alike
  cases alike with
  | @some original _ alike =>
      rw [← alike.isAlive]
      unfold State.seen at before
      cases cached : state.cache.lookup addr with
      | some account =>
          rw [cached, Option.some_or] at before
          obtain rfl := Option.some.inj before
          exact alive addr account cached
      | none =>
          rw [cached, Option.none_or] at before
          exact coherent.stored_alive before

omit [Hashing] in
theorem AllAlive.edit (alive : AllAlive state) {addr : Address}
    {account : Account} (lives : account.isAlive = true)
    (kinds : List ChangeKind) : AllAlive (state.edit addr account kinds) := by
  intro other found cached
  rw [State.lookup_edit] at cached
  split at cached
  · obtain rfl := Option.some.inj cached
    exact lives
  · exact alive other found cached

theorem AllAlive.steps (alive : AllAlive state) (coherent : Coherent state)
    (steps : Steps state state') : AllAlive state' := by
  induction steps with
  | refl => exact alive
  | @tail before last earlier step induction =>
      obtain ⟨addr, step⟩ := step
      have coherent' := coherent.steps earlier
      cases step with
      | quiet quiet => exact induction.quiet coherent' quiet
      | @edited middle account account' kinds quiet found edit =>
          have alive' := induction.quiet coherent' quiet
          refine alive'.edit ?_ kinds
          rw [edit.isAlive]
          exact alive' addr account found
      | @created middle nonce balance quiet missing absent =>
          exact (induction.quiet coherent' quiet).edit rfl
            (balanceKinds balance ++ [.create])

theorem steps_after_recorded (coherent : Coherent state)
    (recorded : Along Recorded state calls) :
    Steps state (after calls state) := by
  induction calls generalizing state with
  | nil => exact .refl
  | cons call calls induction =>
      have first := steps_journalled coherent recorded.1.1 recorded.1.2
      exact first.trans (induction (coherent.steps first) recorded.2)

/-! The answers before and after a commit. -/

theorem HasCode.codeOf_grows {db db' : OverlayDB} {fields : AccountFields}
    (has : HasCode db fields.codeHash) (grows : OverlayDB.Grows db db')
    (injective : db'.Injective) :
    (Account.stored fields).codeOf db = (Account.stored fields).codeOf db' := by
  by_cases empty : fields.codeHash = emptySHA3
  · simp [Account.codeOf, Account.stored, empty]
  · have found := has.lookup_grows grows injective empty
    simp [Account.codeOf, Account.stored, Account.dead, empty, found]

/-- What the trie held before a commit answers alike after it. -/
theorem Coherent.stored_grows (coherent : Coherent state)
    {behaviour : CommitBehaviour}
    (committed : Committed behaviour state state')
    (injective : state'.db.Injective) {addr : Address}
    (same : state'.trie.lookup addr.val = state.trie.lookup addr.val) :
    Option.Rel (Account.AnswerAlike state.db state'.db) (state.stored addr)
      (state'.stored addr) := by
  have equal : state'.stored addr = state.stored addr := by
    simp [State.stored, same]
  rw [equal]
  rcases coherent.complete.stored addr with ⟨_, absent⟩ |
    ⟨fields, _, present, storage, code⟩
  · rw [absent]
    exact .none
  · rw [present]
    refine .some ⟨rfl, rfl, rfl,
      code.codeOf_grows committed.grows injective, ?_⟩
    intro key
    exact ((storage.grows committed.grows injective).2 key).symm

/-- A cached account that is not removed answers as before. -/
theorem Coherent.answerAlike_committed (coherent : Coherent state)
    {behaviour : CommitBehaviour}
    (committed : Committed behaviour state state')
    (injective : state'.db.Injective) (alive : AllAlive state)
    (addr : Address)
    (remains : ∀ account, state.cache.lookup addr = some account →
      swept behaviour account = account) :
    Option.Rel (Account.AnswerAlike state.db state'.db) (state.seen addr)
      (state'.seen addr) := by
  have after : state'.seen addr = state'.stored addr := by
    rw [State.seen, committed.cache]
    rfl
  rw [after]
  cases cached : state.cache.lookup addr with
  | none =>
      have before : state.seen addr = state.stored addr := by
        simp [State.seen, cached]
      rw [before]
      exact coherent.stored_grows committed injective
        (committed.lookup cached)
  | some account =>
      have before : state.seen addr = some account := by
        simp [State.seen, cached]
      have outcome := committed.outcome injective addr account cached
      rw [remains account cached] at outcome
      unfold Outcome at outcome
      split at outcome
      · rename_i clean
        have sound := coherent.sound addr
        rw [cached] at sound
        obtain ⟨original, stored, alike⟩ := SoundLog.clean sound clean
        have kept := coherent.stored_grows committed injective outcome
        rw [stored] at kept
        rw [before]
        generalize state'.stored addr = later at kept ⊢
        cases kept with
        | some kept =>
            refine .some ⟨alike.nonce.trans kept.nonce,
              alike.balance.trans kept.balance,
              alike.codeHash.trans kept.codeHash,
              alike.code.trans kept.code, ?_⟩
            intro key
            exact (alike.value key (by simp)).trans (kept.value key)
      · rw [if_neg (by simp [alive addr account cached])] at outcome
        obtain ⟨fields, found, written⟩ := outcome
        have stored : state'.stored addr = some (.stored fields) := by
          simp [State.stored, found, AccountFields.accountFields_encoding]
        rw [before, stored]
        refine .some ⟨written.nonce.symm, written.balance.symm,
          written.codeHash.symm, written.codeOf.symm, ?_⟩
        intro key
        exact (written.value key).symm

/-- A state opened at the root that a commit leaves gives the same answers. -/
theorem Coherent.reopened (coherent : Coherent state)
    (injective : state.db.Injective) (empty : state.cache = ∅)
    (randomness : Nat → Nat) :
    ∃ fresh, State.openAt state.db state.accountStartNonce state.rootHash
        randomness = .ok fresh ∧
      ∀ addr key, fresh.answers addr key = state.answers addr key := by
  have opened : state.db.openTrie state.rootHash = .ok state.trie :=
    injective.openTrie coherent.opened
  let fresh : State :=
    { db := state.db
      trie := state.trie
      accountStartNonce := state.accountStartNonce
      randomness }
  have isOpened : Opened fresh :=
    ⟨opened, coherent.complete, rfl, rfl, rfl⟩
  refine ⟨fresh, ?_, ?_⟩
  · simp [State.openAt, opened, bind, Except.bind, pure, Except.pure, fresh]
  · intro addr key
    have same : fresh.seen addr = state.seen addr := by
      rw [State.seen, State.seen, empty]
      rfl
    rw [isOpened.coherent.answers, coherent.answers, same]

/-- From a state just opened or committed, recorded calls and a commit: an
account that is dirty and empty is gone if the commit removes such accounts;
for every other address all answers are what they were; and a state opened
at the resulting root gives the same answers. -/
theorem commit_keeps_answers (opening : State) (opened : Opened opening)
    (history : List Call) (careful : Along Careful opening history)
    (collisionless : Along Collisionless opening history)
    (settled : Settled history) (calls : List Call)
    (recorded : Along Recorded (after history opening) calls)
    (behaviour : CommitBehaviour) (randomness : Nat → Nat)
    (injective : (final (State.commit behaviour)
      (after calls (after history opening))).db.Injective) :
    let before := after calls (after history opening)
    let committed := final (State.commit behaviour) before
    (State.commit behaviour).run before = .ok () committed ∧
    (∀ addr key,
      if behaviour = .removeEmptyAccounts ∧
          ∃ account, before.cache.lookup addr = some account ∧
            account.isDirty = true ∧ account.isEmpty = true then
        (committed.answers addr key).inUse = .ok false
      else committed.answers addr key = before.answers addr key) ∧
    ∃ fresh, State.openAt committed.db committed.accountStartNonce
        committed.rootHash randomness = .ok fresh ∧
      ∀ addr key, fresh.answers addr key = committed.answers addr key := by
  have start := opened.coherent.after careful collisionless
  obtain ⟨empty, _⟩ := settled.fresh opened careful collisionless
  have steps := steps_after_recorded start recorded
  have alive : AllAlive (after calls (after history opening)) := by
    refine AllAlive.steps ?_ start steps
    intro addr account found
    rw [empty] at found
    cases found
  have coherent := start.steps steps
  intro before committed
  have coherent' : Coherent before := coherent
  obtain ⟨state', ran, outcome⟩ := run_commit coherent' behaviour
  have last : committed = state' := by
    simp [committed, final, ran]
  have injective' : committed.db.Injective := injective
  rw [last] at injective' ⊢
  have after' := coherent'.committed outcome injective'
  refine ⟨ran, ?_, after'.reopened injective' outcome.cache randomness⟩
  intro addr key
  split
  · rename_i removed
    obtain ⟨removes, account, cached, dirty, bare⟩ := removed
    have gone := outcome.outcome injective' addr account cached
    have killed : swept behaviour account = account.kill :=
      if_pos ⟨removes, dirty, bare⟩
    rw [killed] at gone
    have missing : state'.trie.lookup addr.val = none := by
      simpa [Outcome, Account.kill, Account.changed] using gone
    have unseen : state'.seen addr = none := by
      simp [State.seen, outcome.cache, State.stored, missing]
    rw [after'.answers, unseen]
    rfl
  · rename_i stays
    refine answers_eq coherent' after' outcome.startNonce ?_ key
    refine coherent'.answerAlike_committed outcome injective' alive addr ?_
    intro account cached
    apply if_neg
    rintro ⟨removes, dirty, bare⟩
    exact stays ⟨removes, account, cached, dirty, bare⟩

end

section Sample

attribute [local instance] sampleHashing

theorem commit_keeps_answers_sample :
    let before := after [.addBalance sampleAddress 5,
      .setCode sampleAddress [0], .setStorage sampleAddress 2 7] sampleState
    let committed := final (State.commit .keepEmptyAccounts) before
    committed.answers sampleAddress 2 = before.answers sampleAddress 2 := by
  intro before committed
  have kept := (commit_keeps_answers sampleState sampleState_opened [] trivial
    trivial (.inl rfl)
    [.addBalance sampleAddress 5, .setCode sampleAddress [0],
      .setStorage sampleAddress 2 7] ?_ .keepEmptyAccounts (fun _ => 0)
    ⟨by decide +kernel, by decide +kernel⟩).2.1 sampleAddress 2
  · rw [if_neg (by simp)] at kept
    exact kept
  · refine ⟨⟨trivial, by simp⟩, ⟨⟨_, rfl, by decide +kernel⟩, by simp⟩,
      ⟨?_, by simp⟩, trivial⟩
    show State.reading _ _ = _
    decide +kernel

end Sample

/-! ## Rolled back changes leave no trace in the root -/

section

variable [Hashing] {state state' start : State} {calls : List Call}

/-- Recorded calls that do not dirty an account that is clean and empty,
unless they announce it by a touch as the balance methods do. -/
def Announced (state : State) (call : Call) : Prop :=
  Recorded state call ∧
    match call with
    | .incNonce addr => ∀ account, state.seen addr = some account →
        account.isDirty = true ∨ account.isEmpty = false
    | .setNonce addr _ => ∀ account, state.seen addr = some account →
        account.isDirty = true ∨ account.isEmpty = false
    | .setStorage addr _ _ => ∀ account, state.seen addr = some account →
        account.isDirty = true ∨ account.isEmpty = false
    | .transferBalance _ _ _ => False
    | _ => True

/-- The dirty accounts that are empty in the trie have been touched. -/
def Touched (state : State) : Prop :=
  ∀ addr account original, state.cache.lookup addr = some account →
    account.isUnchanged = false → state.stored addr = some original →
      original.isEmpty = true → ⟨addr, .touch⟩ ∈ state.changeLog

/-- Reads neither mark an account nor drop one that is marked. -/
theorem Quiet.dirty_iff (quiet : Quiet state state') (addr : Address) :
    (∃ account, state'.cache.lookup addr = some account ∧
        account.isUnchanged = false) ↔
      ∃ account, state.cache.lookup addr = some account ∧
        account.isUnchanged = false := by
  have chain := quiet.cache addr
  generalize state'.cache.lookup addr = entry at chain
  induction chain with
  | refl => exact Iff.rfl
  | @tail middle last _ step induction =>
      refine Iff.trans ?_ induction
      cases step with
      | loaded found =>
          have clean := (State.stored_overlay found).2
          simp [clean]
      | evicted clean => simp [clean]
      | slot key missing => simp [Account.setStorageCache]
      | code nonempty missing => simp [Account.noteCode]

theorem Touched.quiet (touched : Touched state)
    (quiet : Quiet state state') : Touched state' := by
  intro addr account original found dirty stored bare
  obtain ⟨before, cached, marked⟩ :=
    (quiet.dirty_iff addr).mp ⟨account, found, dirty⟩
  rw [quiet.stored] at stored
  rw [quiet.changeLog]
  exact touched addr before original cached marked stored bare

/-- A change of one account whose touch, if it needs one, is among its
entries. -/
theorem Touched.edit (touched : Touched state) {addr : Address}
    {account : Account} {kinds : List ChangeKind}
    (announced : ∀ original, state.stored addr = some original →
      original.isEmpty = true →
        (∃ before, state.cache.lookup addr = some before ∧
          before.isUnchanged = false) ∨ .touch ∈ kinds) :
    Touched (state.edit addr account kinds) := by
  intro other found original cached dirty stored bare
  have log : (state.edit addr account kinds).changeLog =
      kinds.map (Change.mk addr) ++ state.changeLog := rfl
  rw [log]
  rw [State.lookup_edit] at cached
  by_cases same : addr = other
  · subst same
    rcases announced original stored bare with ⟨before, old, marked⟩ | now
    · exact List.mem_append_right _
        (touched addr before original old marked stored bare)
    · exact List.mem_append_left _ (List.mem_map.mpr ⟨_, now, rfl⟩)
  · rw [if_neg same] at cached
    exact List.mem_append_right _
      (touched other found original cached dirty stored bare)

theorem Touched.addBalance (touched : Touched state)
    (coherent : Coherent state) (addr : Address) (amount : U256) :
    Touched (final (State.addBalance addr amount) state) := by
  obtain ⟨middle, quiet, cached, ⟨account, seen, last⟩ | ⟨seen, last⟩ |
    last⟩ := State.final_addBalance coherent addr amount
  · rw [last]
    refine (touched.quiet quiet).edit ?_
    intro original stored bare
    have found : middle.cache.lookup addr = some account :=
      cached.trans seen
    cases clean : account.isUnchanged with
    | false => exact .inl ⟨account, found, clean⟩
    | true =>
        have sound := (coherent.quiet quiet).sound addr
        rw [found] at sound
        obtain ⟨original', stored', alike⟩ := SoundLog.clean sound clean
        obtain rfl := Option.some.inj (stored'.symm.trans stored)
        have empty : account.isEmpty = true := alike.isEmpty.trans bare
        refine .inr (List.mem_append_right _ ?_)
        simp [touchKinds, Account.isDirty, clean, empty]
  · rw [last]
    have edited : Touched (middle.edit addr
        (.created middle.accountStartNonce amount)
        (balanceKinds amount ++ [.create])) := by
      refine (touched.quiet quiet).edit ?_
      intro original stored _
      rw [quiet.stored, State.stored_of_seen_none seen] at stored
      cases stored
    exact edited
  · rw [last]
    exact touched.quiet quiet

/-- A step of an account that is dirty or not empty. -/
theorem Touched.step (touched : Touched state) (coherent : Coherent state)
    {addr : Address} (step : Step addr state state')
    (marked : ∀ account, state.seen addr = some account →
      account.isDirty = true ∨ account.isEmpty = false) : Touched state' := by
  cases step with
  | quiet quiet => exact touched.quiet quiet
  | @edited middle account account' kinds quiet found edit =>
      refine (touched.quiet quiet).edit ?_
      intro original stored bare
      refine .inl ⟨account, found, ?_⟩
      by_contra clean
      have unchanged : account.isUnchanged = true := by simpa using clean
      have sound := (coherent.quiet quiet).sound addr
      rw [found] at sound
      obtain ⟨original', stored', alike⟩ := SoundLog.clean sound unchanged
      obtain rfl := Option.some.inj (stored'.symm.trans stored)
      have empty : account.isEmpty = true := alike.isEmpty.trans bare
      have like := coherent.seenAlike quiet addr
      have here : middle.seen addr = some account := by
        simp [State.seen, found]
      rw [here] at like
      generalize before : state.seen addr = seen at like
      cases like with
      | @some account₀ _ like =>
          rcases marked account₀ before with dirty | full
          · have cached : state.cache.lookup addr = some account₀ := by
              unfold State.seen at before
              cases old : state.cache.lookup addr with
              | some other =>
                  rw [old, Option.some_or] at before
                  exact before
              | none =>
                  rw [old, Option.none_or] at before
                  have fresh := (State.stored_overlay before).2
                  simp [Account.isDirty, fresh] at dirty
            have flag : account₀.isUnchanged = false := by
              simpa [Account.isDirty] using dirty
            obtain ⟨later, now, still⟩ :=
              (quiet.dirty_iff addr).mpr ⟨account₀, cached, flag⟩
            obtain rfl := Option.some.inj (found.symm.trans now)
            rw [unchanged] at still
            cases still
          · rw [like.isEmpty, empty] at full
            cases full
  | @created middle nonce balance quiet missing absent =>
      have edited : Touched (middle.edit addr (.created nonce balance)
          (balanceKinds balance ++ [.create])) := by
        refine (touched.quiet quiet).edit ?_
        intro original stored _
        rw [absent] at stored
        cases stored
      exact edited

theorem Touched.call (touched : Touched state) (coherent : Coherent state)
    {call : Call} (announced : Announced state call) :
    Touched (final call.run state) := by
  obtain ⟨⟨journalled, forward⟩, marked⟩ := announced
  cases call with
  | read query => exact touched.quiet (quiet_query coherent query)
  | addBalance addr amount => exact touched.addBalance coherent addr amount
  | subBalance addr value =>
      obtain ⟨middle, quiet, last | ⟨amount, last⟩⟩ :=
        State.final_subBalance coherent addr value
      · exact last ▸ touched.quiet quiet
      · have here : final (Call.subBalance addr value).run state = _ := last
        rw [here]
        exact (touched.quiet quiet).addBalance (coherent.quiet quiet) addr
          amount
  | setBalance addr value =>
      obtain ⟨middle, quiet, last⟩ :=
        State.final_setBalance coherent addr value
      have here : final (Call.setBalance addr value).run state = _ := last
      rw [here]
      exact (touched.quiet quiet).addBalance (coherent.quiet quiet) addr _
  | incNonce addr =>
      exact touched.step coherent (State.step_incNonce coherent addr) marked
  | setNonce addr newNonce =>
      exact touched.step coherent
        (State.step_setNonce coherent addr newNonce) marked
  | setStorage addr key value =>
      obtain ⟨_, ran, _⟩ := State.run_addressInUse coherent addr
      have inUse : (state.seen addr).isSome = true :=
        Except.ok.inj ((State.reading_of_run ran).symm.trans journalled)
      exact touched.step coherent
        (State.step_setStorage coherent inUse key value) marked
  | setCode addr code =>
      obtain ⟨account, found, dirty⟩ := journalled
      have seen : state.seen addr = some account := by
        simp [State.seen, found]
      have flag : account.isUnchanged = false := by
        simpa [Account.isDirty] using dirty
      refine touched.step coherent
        (State.step_setCode coherent seen flag code) ?_
      intro other same
      obtain rfl := Option.some.inj (seen.symm.trans same)
      exact .inl dirty
  | transferBalance sender recipient value => exact marked.elim
  | clearStorage addr => exact journalled.elim
  | kill addr => exact journalled.elim
  | rollback savepoint => exact absurd rfl (forward savepoint)
  | commit behaviour => exact journalled.elim

theorem Touched.after (touched : Touched state) (coherent : Coherent state)
    (announced : Along Announced state calls) :
    Touched (after calls state) := by
  induction calls generalizing state with
  | nil => exact touched
  | cons call calls induction =>
      have steps := steps_journalled coherent announced.1.1.1
        announced.1.1.2
      exact induction (touched.call coherent announced.1)
        (coherent.steps steps) announced.2

omit [Hashing] in
/-- An opening entry among the entries is the last one to be undone. -/
theorem Rooted.split {kinds : List ChangeKind} {kind : ChangeKind}
    (rooted : Rooted kinds) (member : kind ∈ kinds)
    (opens : kind.opens = true) : ∃ front, kinds = front ++ [kind] := by
  induction kinds with
  | nil => cases member
  | cons first kinds induction =>
      obtain ⟨opening, rooted⟩ := rooted
      rcases List.mem_cons.mp member with rfl | later
      · exact ⟨[], by rw [opening opens]; rfl⟩
      · obtain ⟨front, rfl⟩ := induction rooted later
        exact ⟨first :: front, rfl⟩

/-- After everything has been rolled back, no dirty account is empty. -/
theorem Touched.rolledBack {kept : List Change} (touched : Touched state)
    (coherent : Coherent state)
    (done : State.Undone state.changeLog kept state state')
    {addr : Address} {account original : Account}
    (found : state'.cache.lookup addr = some account)
    (dirty : account.isUnchanged = false)
    (stored : state.stored addr = some original) :
    original.isEmpty = false := by
  by_contra bare
  have empty : original.isEmpty = true := by simpa using bare
  rw [done.cache] at found
  have sound := coherent.sound addr
  cases cached : state.cache.lookup addr with
  | none =>
      rw [cached] at sound found
      have none : entriesOf state.changeLog addr = [] := sound
      rw [none] at found
      cases found
  | some before =>
      rw [cached] at sound found
      cases clean : before.isUnchanged with
      | true =>
          rw [SoundLog.log_eq_nil sound clean] at found
          obtain rfl := Option.some.inj found
          rw [clean] at dirty
          cases dirty
      | false =>
          have touch := mem_entriesOf.mpr
            (touched addr before original cached clean stored empty)
          obtain ⟨front, whole⟩ := (SoundLog.rooted sound).split touch rfl
          rw [whole, ChangeKind.undoAll_append] at found
          obtain rfl := Option.some.inj found
          cases dirty

/-- A commit that finds every dirty account alike to what the trie holds, and
none of them to remove, leaves the trie as it was. -/
theorem Committed.trie_eq {behaviour : CommitBehaviour}
    (committed : Committed behaviour state state')
    (injective : state'.db.Injective) (complete : Complete state.db state.trie)
    (clean : ∀ addr account, state.cache.lookup addr = some account →
      account.isUnchanged = false →
        swept behaviour account = account ∧
          AgreesStored state.db (state.stored addr) account) :
    state'.trie = state.trie := by
  apply Finmap.ext_lookup
  intro text
  by_cases cached : ∃ addr account,
      state.cache.lookup addr = some account ∧ text = addr.val
  · obtain ⟨addr, account, found, rfl⟩ := cached
    have outcome := committed.outcome injective addr account found
    by_cases dirty : account.isUnchanged = false
    · obtain ⟨same, original, stored, alike⟩ := clean addr account found dirty
      obtain ⟨fields, text, present⟩ : ∃ fields : AccountFields,
          state.trie.lookup addr.val = some fields.encoding ∧
            state.stored addr = some (.stored fields) := by
        rcases complete.stored addr with ⟨_, absent⟩ |
          ⟨fields, text, present, _, _⟩
        · rw [absent] at stored
          cases stored
        · exact ⟨fields, text, present⟩
      obtain rfl := Option.some.inj (present.symm.trans stored)
      have alive : account.isAlive = true := alike.isAlive
      rw [same] at outcome
      simp only [Outcome, dirty, alive, Bool.false_eq_true, if_false,
        Bool.true_eq_false] at outcome
      obtain ⟨fields', text', written⟩ := outcome
      have root : fields'.storageRoot = fields.storageRoot := by
        rw [written.unchanged, alike.storageRoot]
        · rfl
        · intro key
          rw [alike.value key (by simp), alike.storageRoot]
          rfl
      have equal : fields' = fields := by
        cases fields'
        cases fields
        simp only [AccountFields.mk.injEq]
        exact ⟨written.nonce.trans alike.nonce,
          written.balance.trans alike.balance, root,
          written.codeHash.trans alike.codeHash⟩
      rw [text', text, equal]
    · have unchanged : account.isUnchanged = true := by simpa using dirty
      have same : swept behaviour account = account := by
        simp [swept, Account.isDirty, unchanged]
      rw [same] at outcome
      simpa [Outcome, unchanged] using outcome
  · apply committed.frame
    intro addr found same
    obtain ⟨account, here⟩ := Option.ne_none_iff_exists'.mp found
    exact cached ⟨addr, account, here, same⟩

theorem Along.mono {condition weaker : State → Call → Prop}
    (along : Along condition state calls)
    (implies : ∀ state call, condition state call → weaker state call) :
    Along weaker state calls := by
  induction calls generalizing state with
  | nil => trivial
  | cons call calls induction =>
      exact ⟨implies state call along.1, induction along.2⟩

/-- Nothing is written when the cache is empty. -/
theorem trie_commit_of_empty (coherent : Coherent state)
    (empty : state.cache = ∅) (behaviour : CommitBehaviour) :
    (final (State.commit behaviour) state).trie = state.trie := by
  obtain ⟨state', ran, committed⟩ := run_commit coherent behaviour
  have last : final (State.commit behaviour) state = state' := by
    simp [final, ran]
  rw [last]
  apply Finmap.ext_lookup
  intro text
  apply committed.frame
  intro addr found
  rw [empty] at found
  exact absurd rfl found

/-- Nor when everything that was changed since has been rolled back and the
touched accounts are clean again. -/
theorem Returns.trie_commit {new : List Change}
    (returns : Returns start new state) (coherent : Coherent state)
    (touched : Touched state) (empty : start.cache = ∅)
    (noLog : start.changeLog = []) (behaviour : CommitBehaviour)
    (injective : (final (State.commit behaviour)
      (final (State.rollback 0) state)).db.Injective) :
    (final (State.commit behaviour) (final (State.rollback 0) state)).trie =
      start.trie := by
  have zero : start.savepoint = 0 := by
    simp [State.savepoint, noLog]
  have early : start.savepoint ≤ 0 := by omega
  obtain ⟨coherent', kept, length, back⟩ :=
    returns.rollback coherent early (Nat.zero_le _)
  have none : kept = [] := List.eq_nil_of_length_eq_zero (by omega)
  subst none
  obtain ⟨undone, rest, split, size, _, done⟩ :=
    State.final_rollback (Nat.zero_le state.savepoint)
  obtain rfl : rest = [] := List.eq_nil_of_length_eq_zero size
  rw [List.append_nil] at split
  rw [← split] at done
  obtain ⟨state', ran, committed⟩ := run_commit coherent' behaviour
  have last : final (State.commit behaviour) (final (State.rollback 0) state) =
      state' := by
    simp [final] at ran ⊢
    rw [ran]
  rw [last] at injective ⊢
  rw [← back.trie]
  apply committed.trie_eq injective coherent'.complete
  intro addr account found dirty
  -- What the account was at the start is what the trie holds.
  have alike := back.back addr
  have first : start.seen addr = start.stored addr := by
    rw [State.seen, empty]
    rfl
  have entries : entriesOf ([] : List Change) addr = [] := rfl
  rw [first, entries, found] at alike
  generalize stored : start.stored addr = original at alike
  cases alike with
  | @some original _ alike =>
      have agrees : AgreesStored (final (State.rollback 0) state).db
          ((final (State.rollback 0) state).stored addr) account := by
        rw [back.stored, back.db, stored]
        exact ⟨original, rfl, alike.symm⟩
      refine ⟨?_, agrees⟩
      have full := touched.rolledBack coherent done found dirty (by
        rw [returns.stored, stored])
      rw [alike.isEmpty] at full
      simp [swept, full]

/-- From a state just opened or committed, announced calls that are rolled
back leave the root that a commit would have given without them. -/
theorem rollback_commit_root (opening : State) (opened : Opened opening)
    (history : List Call) (careful : Along Careful opening history)
    (collisionless : Along Collisionless opening history)
    (settled : Settled history) (calls : List Call)
    (announced : Along Announced (after history opening) calls)
    (behaviour : CommitBehaviour)
    (injective : (final (State.commit behaviour)
      (final (State.rollback (after history opening).savepoint)
        (after calls (after history opening)))).db.Injective) :
    (final (State.commit behaviour)
      (final (State.rollback (after history opening).savepoint)
        (after calls (after history opening)))).rootHash =
      (final (State.commit behaviour) (after history opening)).rootHash := by
  have coherent := opened.coherent.after careful collisionless
  obtain ⟨empty, noLog⟩ := settled.fresh opened careful collisionless
  have zero : (after history opening).savepoint = 0 := by
    simp [State.savepoint, noLog]
  have journalled : Along (Journalled (after history opening).savepoint)
      (after history opening) calls := by
    rw [zero]
    exact announced.mono fun _ _ announced => announced.1.1
  obtain ⟨reached, new, returns⟩ :=
    (Returns.refl (after history opening)).after coherent journalled
  have touched : Touched (after calls (after history opening)) := by
    refine Touched.after ?_ coherent announced
    intro addr account original found
    rw [empty] at found
    cases found
  rw [zero] at injective ⊢
  rw [State.rootHash, State.rootHash,
    returns.trie_commit reached touched empty noLog behaviour injective,
    trie_commit_of_empty coherent empty behaviour]

end

section Sample

attribute [local instance] sampleHashing

theorem rollback_commit_root_sample :
    (final (State.commit .removeEmptyAccounts) (final (State.rollback 0)
      (after [.addBalance sampleAddress 5, .incNonce sampleAddress]
        sampleState))).rootHash =
      (final (State.commit .removeEmptyAccounts) sampleState).rootHash := by
  refine rollback_commit_root sampleState sampleState_opened [] trivial trivial
    (.inl rfl) [.addBalance sampleAddress 5, .incNonce sampleAddress] ?_
    .removeEmptyAccounts ⟨by decide +kernel, by decide +kernel⟩
  refine ⟨⟨⟨trivial, by simp⟩, trivial⟩, ⟨⟨trivial, by simp⟩, ?_⟩, trivial⟩
  intro account found
  have here := Option.some.inj found
  subst here
  exact .inl (by decide +kernel)

/-- The nonce is put back but the account stays dirty, and the commit deletes
it. -/
theorem rollback_commit_root_differs :
    (final (State.commit .removeEmptyAccounts) (final (State.rollback 0)
      (after [.incNonce sampleAddress] sampleState))).rootHash ≠
      (final (State.commit .removeEmptyAccounts) sampleState).rootHash := by
  decide +kernel

end Sample

end Aecmio
