import Aecmio.State.Journal

/-!
# Coherent states

The invariant that every method keeps: the database has what the state trie
refers to, addresses noted as absent are absent, and every cached account is
usable and sound with respect to its entries in the change log.  A read
changes the cache only in ways that cannot be observed.
-/

namespace Aecmio

open Relation

variable [Hashing]

/-! ## A complete database -/

/-- The root of a storage trie whose values are encoded numbers. -/
def StorageTrie (db : OverlayDB) (root : H256) : Prop :=
  ∃ contents, db.openTrie root = .ok contents ∧
    ∀ key text, contents.lookup (storageKey key) = some text →
      ∃ value, value ≠ 0 ∧ text = storageEncoding value

def HasCode (db : OverlayDB) (hash : H256) : Prop :=
  hash = emptySHA3 ∨ ∃ code ∈ db.codes, sha3 code = hash

/-- Everything the state trie refers to is in the database. -/
def Complete (db : OverlayDB) (trie : Contents) : Prop :=
  ∀ (addr : Address) (text : Bytes), trie.lookup addr.val = some text →
    ∃ fields : AccountFields, text = fields.encoding ∧
      StorageTrie db fields.storageRoot ∧ HasCode db fields.codeHash

structure Usable (db : OverlayDB) (account : Account) : Prop where
  storage : StorageTrie db account.storageRoot
  code : account.codeHash ≠ emptySHA3 →
    if account.codeCache.isEmpty then HasCode db account.codeHash
    else sha3 account.codeCache = account.codeHash
  kept : account.isAlive = true → account.hasNewCode = false →
    HasCode db account.codeHash ∧
      (account.codeCache = [] ∨
        account.codeCache = db.lookup account.codeHash)
  new : account.isAlive = true → account.hasNewCode = true →
    sha3 account.codeCache = account.codeHash

/-- The entries of one address. -/
def entriesOf (log : List Change) (addr : Address) : List ChangeKind :=
  log.filterMap fun change =>
    if change.address = addr then some change.kind else none

namespace State

/-- The account that `State::account` loads for an address. -/
def stored (state : State) (addr : Address) : Option Account :=
  match state.trie.lookup addr.val with
  | none => none
  | some text =>
      match accountFields text with
      | .ok fields => some (.stored fields)
      | .error _ => none

/-- The account that `State::account` returns for an address. -/
def seen (state : State) (addr : Address) : Option Account :=
  (state.cache.lookup addr).or (state.stored addr)

end State

structure Coherent (state : State) : Prop where
  opened : state.trie ∈ ∅ :: state.db.tries
  complete : Complete state.db state.trie
  absent : ∀ addr ∈ state.nonExistingAccountsCache,
    state.stored addr = none ∧
      ∀ account, state.cache.lookup addr = some account →
        account.isAlive = false
  usable : ∀ addr account, state.cache.lookup addr = some account →
    Usable state.db account
  sound : ∀ addr, SoundEntry state.db (state.stored addr)
    (entriesOf state.changeLog addr) (state.cache.lookup addr)
  roots : ∀ change ∈ state.changeLog, ∀ root,
    change.kind = .storageRoot root → StorageTrie state.db root

section

variable {db : OverlayDB} {state state' : State} {addr : Address}
  {account : Account}

theorem Complete.stored (complete : Complete state.db state.trie)
    (addr : Address) :
    (state.trie.lookup addr.val = none ∧ state.stored addr = none) ∨
      ∃ fields : AccountFields,
        state.trie.lookup addr.val = some fields.encoding ∧
          state.stored addr = some (.stored fields) ∧
          StorageTrie state.db fields.storageRoot ∧
          HasCode state.db fields.codeHash := by
  unfold State.stored
  cases found : state.trie.lookup addr.val with
  | none => exact .inl ⟨rfl, rfl⟩
  | some text =>
      obtain ⟨fields, rfl, storage, code⟩ := complete addr text found
      refine .inr ⟨fields, rfl, ?_, storage, code⟩
      simp [AccountFields.accountFields_encoding]

theorem usable_stored {fields : AccountFields}
    (storage : StorageTrie db fields.storageRoot)
    (code : HasCode db fields.codeHash) :
    Usable db (.stored fields) where
  storage := storage
  code _ := code
  kept _ _ := ⟨code, .inl rfl⟩
  new _ new := Bool.noConfusion new

theorem Complete.usable (complete : Complete state.db state.trie)
    (found : state.stored addr = some account) : Usable state.db account := by
  rcases complete.stored addr with ⟨_, absent⟩ | ⟨fields, _, present, storage,
    code⟩
  · rw [absent] at found
    cases found
  · obtain rfl := Option.some.inj (present.symm.trans found)
    exact usable_stored storage code

theorem State.stored_overlay {original : Account}
    (found : state.stored addr = some original) :
    original.storageOverlay = ∅ ∧ original.isUnchanged = true := by
  unfold State.stored at found
  split at found
  · cases found
  · split at found
    · obtain rfl := Option.some.inj found
      exact ⟨rfl, rfl⟩
    · cases found

/-- What the database returns for the hash of a code that it has. -/
theorem HasCode.lookup {hash : H256} (has : HasCode db hash)
    (nonempty : hash ≠ emptySHA3) : sha3 (db.lookup hash) = hash := by
  obtain ⟨code, member, same⟩ := has.resolve_left nonempty
  unfold OverlayDB.lookup
  cases found : db.codes.find? fun code => sha3 code = hash with
  | none =>
      have none := List.find?_eq_none.mp found code member
      simp [same] at none
  | some first =>
      have matching := List.find?_some found
      simpa using matching

/-- The code of an account has the hash that the account records. -/
theorem Usable.sha3_codeOf (usable : Usable db account) :
    sha3 (account.codeOf db) = account.codeHash := by
  unfold Account.codeOf
  by_cases empty : account.codeHash = emptySHA3
  · rw [if_pos empty, empty]
    rfl
  · have code := usable.code empty
    rw [if_neg empty]
    by_cases cached : account.codeCache.isEmpty
    · rw [if_pos cached] at code ⊢
      exact code.lookup empty
    · rwa [if_neg cached] at code ⊢

theorem StorageTrie.slot {root : H256} (trie : StorageTrie db root)
    (key : U256) :
    ∃ contents, db.openTrie root = .ok contents ∧
      storageValue ((contents.lookup (storageKey key)).getD []) =
        .ok (db.slot root key) := by
  obtain ⟨contents, opened, encoded⟩ := trie
  refine ⟨contents, opened, ?_⟩
  have value : ∃ value,
      storageValue ((contents.lookup (storageKey key)).getD []) =
        .ok value := by
    cases found : contents.lookup (storageKey key) with
    | none => exact ⟨0, rfl⟩
    | some text =>
        obtain ⟨value, _, rfl⟩ := encoded key text found
        exact ⟨value, storageValue_storageEncoding value⟩
  obtain ⟨value, read⟩ := value
  simp [OverlayDB.slot, opened, read]

end

/-! ## Changes that cannot be observed -/

/-- What reads do to an entry of the cache. -/
inductive Refreshed (db : OverlayDB) (stored : Option Account) :
    Option Account → Option Account → Prop
  | loaded {account : Account} (found : stored = some account) :
      Refreshed db stored none (some account)
  | evicted {account : Account} (clean : account.isUnchanged = true) :
      Refreshed db stored (some account) none
  | slot {account : Account} (key : U256)
      (missing : account.storageOverlay.lookup key = none) :
      Refreshed db stored (some account)
        (some (account.setStorageCache key (db.slot account.storageRoot key)))
  | code {account : Account} (nonempty : account.codeHash ≠ emptySHA3)
      (missing : account.codeCache.isEmpty = true) :
      Refreshed db stored (some account)
        (some (account.noteCode (db.lookup account.codeHash)))

/-- Both are absent, or both are there and look alike. -/
abbrev SeenAlike (db : OverlayDB) : Option Account → Option Account → Prop :=
  Option.Rel (Account.Alike db)

section

variable {db : OverlayDB} {stored : Option Account}
  {kinds : List ChangeKind} {entry entry' : Option Account}
  {account account' : Account}

theorem alike_setStorageCache {key : U256}
    (missing : account.storageOverlay.lookup key = none) :
    account.Alike db
      (account.setStorageCache key (db.slot account.storageRoot key)) := by
  refine ⟨rfl, rfl, rfl, rfl, rfl, rfl, ?_⟩
  intro other _
  by_cases same : other = key
  · subst same
    simp [Account.value, Account.setStorageCache, missing]
  · simp [Account.value, Account.setStorageCache, same]

theorem alike_noteCode (nonempty : account.codeHash ≠ emptySHA3)
    (missing : account.codeCache.isEmpty = true) :
    account.Alike db (account.noteCode (db.lookup account.codeHash)) := by
  refine ⟨rfl, rfl, rfl, rfl, ?_, rfl, fun _ _ => rfl⟩
  simp [Account.codeOf, Account.noteCode, nonempty, missing]

theorem Refreshed.soundEntry (refreshed : Refreshed db stored entry entry')
    (sound : SoundEntry db stored kinds entry) :
    SoundEntry db stored kinds entry' := by
  cases refreshed with
  | @loaded account found =>
      have empty : kinds = [] := sound
      subst empty
      refine ⟨trivial, by simp, ?_, by simp, by simp⟩
      intro _
      exact ⟨account, found, .refl account⟩
  | evicted clean => exact SoundLog.log_eq_nil sound clean
  | slot key missing =>
      exact SoundLog.congr sound (alike_setStorageCache missing) rfl
  | code nonempty missing =>
      exact SoundLog.congr sound (alike_noteCode nonempty missing) rfl

theorem Refreshed.usable (refreshed : Refreshed db stored entry (some account'))
    (loads : ∀ original, stored = some original → Usable db original)
    (usable : ∀ account, entry = some account → Usable db account) :
    Usable db account' := by
  generalize reached : some account' = entry' at refreshed
  cases refreshed with
  | loaded found =>
      obtain rfl := Option.some.inj reached
      exact loads _ found
  | evicted => cases reached
  | slot key missing =>
      obtain rfl := Option.some.inj reached
      have before := usable _ rfl
      exact ⟨before.storage, before.code, before.kept, before.new⟩
  | @code account nonempty missing =>
      obtain rfl := Option.some.inj reached
      have before := usable _ rfl
      have cached : HasCode db account.codeHash := by
        have code := before.code nonempty
        rwa [if_pos missing] at code
      refine ⟨before.storage, ?_, fun _ _ => ⟨cached, .inr rfl⟩, ?_⟩
      · intro _
        split
        · exact cached
        · exact cached.lookup nonempty
      · intro _ _
        exact cached.lookup nonempty

theorem Refreshed.seenAlike (refreshed : Refreshed db stored entry entry')
    (sound : SoundEntry db stored kinds entry) :
    SeenAlike db (entry.or stored) (entry'.or stored) := by
  cases refreshed with
  | loaded found =>
      simp only [Option.none_or, Option.some_or, found]
      exact .some (.refl _)
  | @evicted account clean =>
      obtain ⟨original, found, alike⟩ := SoundLog.clean sound clean
      simp only [Option.none_or, Option.some_or, found]
      exact .some alike
  | slot key missing => exact .some (alike_setStorageCache missing)
  | code nonempty missing => exact .some (alike_noteCode nonempty missing)

theorem SeenAlike.refl (entry : Option Account) : SeenAlike db entry entry := by
  cases entry with
  | none => exact .none
  | some account => exact .some (.refl account)

theorem SeenAlike.trans {middle : Option Account}
    (first : SeenAlike db entry middle) (second : SeenAlike db middle entry') :
    SeenAlike db entry entry' := by
  cases first with
  | none => exact second
  | some alike =>
      cases second with
      | some alike' => exact .some (alike.trans alike')

theorem SeenAlike.symm (alike : SeenAlike db entry entry') :
    SeenAlike db entry' entry := by
  cases alike with
  | none => exact .none
  | some alike => exact .some (Account.AlikeOff.symm alike)

end

/-- A step of the state that no later read can tell. -/
structure Quiet (state state' : State) : Prop where
  db : state'.db = state.db
  trie : state'.trie = state.trie
  changeLog : state'.changeLog = state.changeLog
  startNonce : state'.accountStartNonce = state.accountStartNonce
  absent : ∀ addr ∈ state'.nonExistingAccountsCache,
    addr ∈ state.nonExistingAccountsCache ∨
      state.stored addr = none ∧ state.cache.lookup addr = none
  cache : ∀ addr, ReflTransGen (Refreshed state.db (state.stored addr))
    (state.cache.lookup addr) (state'.cache.lookup addr)

section

variable {state state' state'' : State} {addr : Address}

theorem Quiet.stored (quiet : Quiet state state') (addr : Address) :
    state'.stored addr = state.stored addr := by
  simp [State.stored, quiet.trie]

theorem Quiet.refl (state : State) : Quiet state state :=
  ⟨rfl, rfl, rfl, rfl, fun _ member => .inl member, fun _ => .refl⟩

/-- What the invariant says of one entry is kept by every chain of
refreshments. -/
theorem Coherent.refreshed (coherent : Coherent state) (addr : Address)
    {entry : Option Account}
    (chain : ReflTransGen (Refreshed state.db (state.stored addr))
      (state.cache.lookup addr) entry) :
    SoundEntry state.db (state.stored addr)
        (entriesOf state.changeLog addr) entry ∧
      (∀ account, entry = some account → Usable state.db account) ∧
      SeenAlike state.db (state.seen addr)
        (entry.or (state.stored addr)) := by
  induction chain with
  | refl =>
      exact ⟨coherent.sound addr, coherent.usable addr, SeenAlike.refl _⟩
  | tail _ step induction =>
      obtain ⟨sound, usable, alike⟩ := induction
      refine ⟨?_, ?_, alike.trans (step.seenAlike sound)⟩
      · exact step.soundEntry sound
      · intro account found
        subst found
        exact step.usable (fun original found =>
          coherent.complete.usable found) usable

theorem Coherent.quiet (coherent : Coherent state)
    (quiet : Quiet state state') : Coherent state' := by
  have each := fun addr => coherent.refreshed addr (quiet.cache addr)
  refine ⟨?_, ?_, ?_, ?_, ?_, ?_⟩
  · rw [quiet.db, quiet.trie]
    exact coherent.opened
  · rw [quiet.db, quiet.trie]
    exact coherent.complete
  · intro addr member
    obtain ⟨_, _, alike⟩ := each addr
    rw [quiet.stored]
    have absent : state.stored addr = none ∧
        ∀ account, state.cache.lookup addr = some account →
          account.isAlive = false := by
      rcases quiet.absent addr member with before | ⟨absent, missing⟩
      · exact coherent.absent addr before
      · refine ⟨absent, ?_⟩
        intro account found
        rw [missing] at found
        cases found
    refine ⟨absent.1, ?_⟩
    intro account found
    simp only [State.seen, absent.1, found, Option.some_or,
      Option.or_none] at alike
    cases before : state.cache.lookup addr with
    | none =>
        rw [before] at alike
        cases alike
    | some original =>
        rw [before] at alike
        cases alike with
        | some alike =>
            rw [← alike.isAlive]
            exact absent.2 original before
  · intro addr account found
    rw [quiet.db]
    exact (each addr).2.1 account found
  · intro addr
    rw [quiet.db, quiet.stored, quiet.changeLog]
    exact (each addr).1
  · rw [quiet.db, quiet.changeLog]
    exact coherent.roots

theorem Coherent.seenAlike (coherent : Coherent state)
    (quiet : Quiet state state') (addr : Address) :
    SeenAlike state.db (state.seen addr) (state'.seen addr) := by
  have alike := (coherent.refreshed addr (quiet.cache addr)).2.2
  unfold State.seen at alike ⊢
  rwa [quiet.stored]

theorem Quiet.trans (coherent : Coherent state) (first : Quiet state state')
    (second : Quiet state' state'') : Quiet state state'' := by
  refine ⟨second.db.trans first.db, second.trie.trans first.trie,
    second.changeLog.trans first.changeLog,
    second.startNonce.trans first.startNonce, ?_, ?_⟩
  · intro addr member
    rcases second.absent addr member with before | ⟨absent, missing⟩
    · exact first.absent addr before
    · rw [first.stored] at absent
      have alike := coherent.seenAlike first addr
      simp only [State.seen, first.stored, absent, missing,
        Option.or_none] at alike
      refine .inr ⟨absent, ?_⟩
      cases before : state.cache.lookup addr with
      | none => rfl
      | some account =>
          rw [before] at alike
          cases alike
  · intro addr
    have later := second.cache addr
    rw [first.db, first.stored] at later
    exact (first.cache addr).trans later

end

end Aecmio
