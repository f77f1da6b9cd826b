import Aecmio.State.Mutating

/-!
# Rollback

`rollback` undoes the entries above the savepoint, newest first.  On the
account of one address it undoes exactly the entries of that address.
-/

namespace Aecmio

open Traced

variable [Hashing]

namespace State

/-! ## What rollback does to each account -/

variable {state state' : State} {addr : Address}

theorem lookup_undo (state : State) (change : Change) (addr : Address) :
    (state.undo change).cache.lookup addr =
      if change.address = addr then
        change.kind.undo ((state.cache.lookup addr).getD .dead)
      else state.cache.lookup addr := by
  unfold undo cacheAt
  dsimp only
  by_cases same : change.address = addr
  · subst same
    rw [if_pos rfl]
    cases change.kind.undo
        ((state.cache.lookup change.address).getD .dead) with
    | some account => simp [store]
    | none => simp
  · have different : addr ≠ change.address := fun equal => same equal.symm
    rw [if_neg same]
    cases change.kind.undo
        ((state.cache.lookup change.address).getD .dead) with
    | some account => simp [store, different]
    | none => exact AList.lookup_erase_ne different

/-- The state after the entries `undone`, those above `kept`, are undone. -/
structure Undone (undone kept : List Change) (state state' : State) :
    Prop where
  db : state'.db = state.db
  trie : state'.trie = state.trie
  startNonce : state'.accountStartNonce = state.accountStartNonce
  absent : state'.nonExistingAccountsCache = state.nonExistingAccountsCache
  changeLog : state'.changeLog = kept
  cache : ∀ addr, state'.cache.lookup addr =
    ChangeKind.undoAll (entriesOf undone addr) (state.cache.lookup addr)

theorem undo_frame (state : State) (change : Change) :
    (state.undo change).db = state.db ∧
      (state.undo change).trie = state.trie ∧
      (state.undo change).accountStartNonce = state.accountStartNonce ∧
      (state.undo change).nonExistingAccountsCache =
        state.nonExistingAccountsCache := by
  unfold undo
  dsimp only
  cases change.kind.undo (state.cacheAt change.address) <;>
    exact ⟨rfl, rfl, rfl, rfl⟩

theorem undone_cons {change : Change} {undone kept rest : List Change}
    (later : Undone undone kept
      { state.undo change with changeLog := rest } state') :
    Undone (change :: undone) kept state state' := by
  obtain ⟨db, trie, startNonce, absent⟩ := undo_frame state change
  refine ⟨later.db.trans db, later.trie.trans trie,
    later.startNonce.trans startNonce, later.absent.trans absent,
    later.changeLog, ?_⟩
  intro addr
  rw [later.cache addr, lookup_undo]
  by_cases same : change.address = addr
  · simp [entriesOf, same, ChangeKind.undoAll]
  · simp [entriesOf, same]

theorem final_rollbackLoop {savepoint : Nat} {log : List Change}
    (within : savepoint ≤ log.length) (current : state.changeLog = log) :
    ∃ undone kept, log = undone ++ kept ∧ kept.length = savepoint ∧
      (rollbackLoop savepoint log).run state =
        .ok () (final (rollbackLoop savepoint log) state) ∧
      Undone undone kept state (final (rollbackLoop savepoint log) state) := by
  induction log generalizing state with
  | nil =>
      have zero : savepoint = 0 := by simpa using within
      refine ⟨[], [], rfl, by simp [zero], by simp [rollbackLoop, zero, final],
        ?_⟩
      simp only [rollbackLoop, zero, if_true, final, EStateM.run_pure]
      exact ⟨rfl, rfl, rfl, rfl, current, fun _ => rfl⟩
  | cons change rest induction =>
      by_cases here : savepoint = rest.length + 1
      · refine ⟨[], change :: rest, rfl, by simp [here],
          by simp [rollbackLoop, here, final], ?_⟩
        simp only [rollbackLoop, here, if_true, final, EStateM.run_pure]
        exact ⟨rfl, rfl, rfl, rfl, current, fun _ => rfl⟩
      · have smaller : savepoint ≤ rest.length := by
          simp only [List.length_cons] at within
          omega
        obtain ⟨undone, kept, split, length, ran, later⟩ :=
          @induction { state.undo change with changeLog := rest } smaller rfl
        have same : (rollbackLoop savepoint (change :: rest)).run state =
            (rollbackLoop savepoint rest).run
              { state.undo change with changeLog := rest } := by
          rw [rollbackLoop, if_neg here]
          rfl
        have last : final (rollbackLoop savepoint (change :: rest)) state =
            final (rollbackLoop savepoint rest)
              { state.undo change with changeLog := rest } := by
          simp only [final, same]
        refine ⟨change :: undone, kept, by rw [split]; rfl, length, ?_, ?_⟩
        · rw [same, last, ran]
        · rw [last]
          exact undone_cons later

/-- A rollback to a savepoint within the log. -/
theorem final_rollback {savepoint : Nat}
    (within : savepoint ≤ state.savepoint) :
    ∃ undone kept, state.changeLog = undone ++ kept ∧
      kept.length = savepoint ∧
      (rollback savepoint).run state =
        .ok () (final (rollback savepoint) state) ∧
      Undone undone kept state (final (rollback savepoint) state) := by
  have same : (rollback savepoint).run state =
      (rollbackLoop savepoint state.changeLog).run state := by
    simp [rollback, EStateM.run_bind, EStateM.run_get]
  have last : final (rollback savepoint) state =
      final (rollbackLoop savepoint state.changeLog) state := by
    simp only [final, same]
  rw [same, last]
  exact final_rollbackLoop within rfl

end State

/-! ## Rollback keeps the invariant -/

section

variable {db : OverlayDB} {stored : Option Account}
  {kinds rest : List ChangeKind} {entry entry' : Option Account}
  {account account' : Account} {kind : ChangeKind}

theorem Usable.undo (usable : Usable db account)
    (roots : ∀ root, kind = .storageRoot root → StorageTrie db root)
    (undone : kind.undo account = some account') :
    Usable db account' ∧ account'.isAlive = account.isAlive := by
  have same : ∀ changed : Account,
      changed.storageRoot = account.storageRoot →
      changed.codeHash = account.codeHash →
      changed.codeCache = account.codeCache →
      changed.isAlive = account.isAlive →
      changed.hasNewCode = account.hasNewCode → Usable db changed := by
    intro changed root hash cache alive new
    refine ⟨?_, ?_, ?_, ?_⟩
    · rw [root]
      exact usable.storage
    · rw [hash, cache]
      exact usable.code
    · rw [hash, cache, alive, new]
      exact usable.kept
    · rw [hash, cache, alive, new]
      exact usable.new
  cases kind with
  | create => simp [ChangeKind.undo] at undone
  | balance amount =>
      obtain rfl := Option.some.inj undone
      exact ⟨same _ rfl rfl rfl rfl rfl, rfl⟩
  | nonce nonce =>
      obtain rfl := Option.some.inj undone
      exact ⟨same _ rfl rfl rfl rfl rfl, rfl⟩
  | storage key value =>
      obtain rfl := Option.some.inj undone
      exact ⟨same _ rfl rfl rfl rfl rfl, rfl⟩
  | touch =>
      obtain rfl := Option.some.inj undone
      exact ⟨same _ rfl rfl rfl rfl rfl, rfl⟩
  | code code =>
      obtain rfl := Option.some.inj undone
      exact ⟨usable_setCode usable.storage code, rfl⟩
  | storageRoot root =>
      obtain rfl := Option.some.inj undone
      exact ⟨⟨roots root rfl, usable.code, usable.kept, usable.new⟩, rfl⟩

/-- Undoing the newest entries of an account, none of them a touch of an
account that is dead now. -/
theorem SoundEntry.undoAll
    (sound : SoundEntry db stored (kinds ++ rest) entry)
    (lives : .touch ∈ kinds → ∀ account, entry = some account →
      account.isAlive = true)
    (roots : ∀ root, .storageRoot root ∈ kinds → StorageTrie db root)
    (usable : ∀ account, entry = some account → Usable db account) :
    SoundEntry db stored rest (ChangeKind.undoAll kinds entry) ∧
      ∀ account', ChangeKind.undoAll kinds entry = some account' →
        Usable db account' ∧ ∃ account, entry = some account ∧
          account.isAlive = account'.isAlive := by
  induction kinds generalizing entry with
  | nil =>
      refine ⟨sound, ?_⟩
      intro account' found
      exact ⟨usable account' found, account', found, rfl⟩
  | cons kind kinds induction =>
      cases entry with
      | none => cases (show kind :: (kinds ++ rest) = [] from sound)
      | some account =>
          have undone : SoundEntry db stored (kinds ++ rest)
              (kind.undo account) := by
            apply SoundLog.undo sound
            intro touch
            exact lives (by simp [touch]) account rfl
          have next : ∀ account', kind.undo account = some account' →
              Usable db account' ∧ account'.isAlive = account.isAlive := by
            intro account' ran
            exact (usable account rfl).undo
              (fun root clears => roots root (by simp [clears])) ran
          obtain ⟨kept, carried⟩ := induction undone
            (fun member account' ran => by
              rw [(next account' ran).2]
              exact lives (List.mem_cons_of_mem _ member) account rfl)
            (fun root member => roots root (List.mem_cons_of_mem _ member))
            (fun account' ran => (next account' ran).1)
          refine ⟨kept, ?_⟩
          intro account' reached
          obtain ⟨good, middle, ran, alive⟩ := carried account' reached
          exact ⟨good, account, rfl, (next middle ran).2.symm.trans alive⟩

end

section

variable {state state' : State} {undone kept : List Change}

omit [Hashing] in
theorem mem_entriesOf {log : List Change} {addr : Address}
    {kind : ChangeKind} :
    kind ∈ entriesOf log addr ↔ ⟨addr, kind⟩ ∈ log := by
  simp only [entriesOf, List.mem_filterMap]
  constructor
  · rintro ⟨⟨other, found⟩, member, same⟩
    split at same
    · rename_i equal
      obtain rfl := Option.some.inj same
      have here : other = addr := equal
      subst here
      exact member
    · cases same
  · intro member
    exact ⟨⟨addr, kind⟩, member, by simp⟩

/-- What the invariant says of one account when entries are undone. -/
theorem Coherent.undoAll (coherent : Coherent state)
    (split : state.changeLog = undone ++ kept) {addr : Address}
    (lives : ⟨addr, .touch⟩ ∈ undone →
      ∀ account, state.cache.lookup addr = some account →
        account.isAlive = true) :
    SoundEntry state.db (state.stored addr) (entriesOf kept addr)
        (ChangeKind.undoAll (entriesOf undone addr)
          (state.cache.lookup addr)) ∧
      ∀ account', ChangeKind.undoAll (entriesOf undone addr)
          (state.cache.lookup addr) = some account' →
        Usable state.db account' ∧
          ∃ account, state.cache.lookup addr = some account ∧
            account.isAlive = account'.isAlive := by
  apply SoundEntry.undoAll
  · rw [← entriesOf_append, ← split]
    exact coherent.sound addr
  · intro touch
    exact lives (mem_entriesOf.mp touch)
  · intro root member
    refine coherent.roots ⟨addr, .storageRoot root⟩ ?_ root rfl
    rw [split]
    exact List.mem_append_left _ (mem_entriesOf.mp member)
  · exact coherent.usable addr

theorem Coherent.rolledBack (coherent : Coherent state)
    (split : state.changeLog = undone ++ kept)
    (lives : ∀ addr, ⟨addr, .touch⟩ ∈ undone →
      ∀ account, state.cache.lookup addr = some account →
        account.isAlive = true)
    (done : State.Undone undone kept state state') : Coherent state' := by
  have stored : ∀ addr, state'.stored addr = state.stored addr := by
    intro addr
    simp [State.stored, done.trie]
  have each := fun addr => coherent.undoAll split (lives addr)
  refine ⟨?_, ?_, ?_, ?_, ?_, ?_⟩
  · rw [done.db, done.trie]
    exact coherent.opened
  · rw [done.db, done.trie]
    exact coherent.complete
  · intro addr member
    rw [done.absent] at member
    obtain ⟨absent, dead⟩ := coherent.absent addr member
    refine ⟨(stored addr).trans absent, ?_⟩
    intro account' found
    rw [done.cache] at found
    obtain ⟨_, account, before, alive⟩ := (each addr).2 account' found
    rw [← alive]
    exact dead account before
  · intro addr account' found
    rw [done.cache] at found
    rw [done.db]
    exact ((each addr).2 account' found).1
  · intro addr
    rw [done.db, stored, done.changeLog, done.cache]
    exact (each addr).1
  · intro change member root clears
    rw [done.changeLog] at member
    rw [done.db]
    exact coherent.roots change
      (by rw [split]; exact List.mem_append_right _ member) root clears

end

/-! ## The way back to a savepoint -/

section

variable {db : OverlayDB} {stored : Option Account}
  {kinds rest : List ChangeKind} {entry entry' : Option Account}
  {account account' : Account}

omit [Hashing] in
theorem Rooted.of_append (rooted : Rooted (kinds ++ rest)) :
    Rooted kinds := by
  induction kinds with
  | nil => trivial
  | cons kind kinds induction =>
      obtain ⟨opening, later⟩ := rooted
      refine ⟨?_, induction later⟩
      intro opens
      exact (List.append_eq_nil_iff.mp (opening opens)).1

/-- Undoing the same entries keeps two accounts alike. -/
theorem SeenAlike.undoAll (rooted : Rooted kinds)
    (cached : kinds ≠ [] → entry.isSome ∧ entry'.isSome)
    (alike : SeenAlike db (entry.or stored) (entry'.or stored)) :
    SeenAlike db ((ChangeKind.undoAll kinds entry).or stored)
      ((ChangeKind.undoAll kinds entry').or stored) := by
  induction kinds generalizing entry entry' with
  | nil => exact alike
  | cons kind kinds induction =>
      obtain ⟨isSome, isSome'⟩ := cached (by simp)
      obtain ⟨account, rfl⟩ := Option.isSome_iff_exists.mp isSome
      obtain ⟨account', rfl⟩ := Option.isSome_iff_exists.mp isSome'
      obtain ⟨opening, rooted⟩ := rooted
      cases alike with
      | some alike =>
          cases undone : kind.undo account with
          | none =>
              have create : kind = .create := by
                cases kind <;> simp_all [ChangeKind.undo]
              have oldest : kinds = [] :=
                opening (by simp [create, ChangeKind.opens])
              subst create oldest
              exact SeenAlike.refl stored
          | some next =>
              have wider : Account.AlikeOff db (ChangeKind.keys [kind])
                  account account' := alike.mono (by simp)
              obtain ⟨next', undone', alike'⟩ :=
                ChangeKind.undo_alikeOff wider undone
              have step : ∀ entry : Option Account, ∀ result,
                  kind.undo (entry.getD .dead) = result →
                  ChangeKind.undoAll (kind :: kinds) entry =
                    ChangeKind.undoAll kinds result := by
                intro entry result ran
                simp [ChangeKind.undoAll, ran]
              rw [step (some account) _ undone,
                step (some account') _ undone']
              exact induction rooted (fun _ => ⟨rfl, rfl⟩) (.some alike')

/-- The entries of a change lead back to an account like the one before. -/
theorem Edit.undone {kinds : List ChangeKind}
    (edit : Edit db account account' kinds) (usable : Usable db account) :
    ∃ undone, ChangeKind.undoAll kinds (some account') = some undone ∧
      account.Alike db undone := by
  cases edit with
  | addBalance amount =>
      have touched : ∀ middle, account.Alike db middle →
          ∃ undone, ChangeKind.undoAll (touchKinds account) (some middle) =
            some undone ∧ account.Alike db undone := by
        intro middle alike
        unfold touchKinds
        split
        · exact ⟨_, rfl, { alike with }⟩
        · exact ⟨middle, rfl, alike⟩
      by_cases zero : amount = 0
      · have noted : balanceKinds amount = [] := if_neg (not_not.mpr zero)
        rw [noted]
        apply touched
        refine ⟨rfl, rfl, ?_, rfl, rfl, rfl, fun _ _ => rfl⟩
        simp [Account.addBalance, Account.changed, zero]
      · have noted : balanceKinds amount = [.balance amount] := if_pos zero
        rw [noted, ChangeKind.undoAll_append]
        apply touched
        refine ⟨rfl, rfl, ?_, rfl, rfl, rfl, fun _ _ => rfl⟩
        simp [Account.addBalance, Account.changed]
  | setNonce nonce =>
      exact ⟨_, rfl, rfl, rfl, rfl, rfl, rfl, rfl, fun _ _ => rfl⟩
  | setStorage key value =>
      refine ⟨_, rfl, rfl, rfl, rfl, rfl, rfl, rfl, ?_⟩
      intro other _
      rw [Option.getD_some, Account.value_setStorage, Account.value_setStorage]
      by_cases same : other = key
      · simp [same]
      · rw [if_neg same, if_neg same]
  | setCode code dirty =>
      have hash := usable.sha3_codeOf
      refine ⟨_, rfl, rfl, rfl, rfl, hash.symm, ?_, rfl, fun _ _ => rfl⟩
      rw [Option.getD_some, Account.codeOf_setCode, hash]
      by_cases empty : account.codeHash = emptySHA3
      · simp [Account.codeOf, empty]
      · rw [if_neg empty]
        split
        · rename_i missing
          have none : account.codeOf db = [] := by simpa using missing
          rw [none] at hash
          exact absurd hash.symm empty
        · rfl

end

end Aecmio
