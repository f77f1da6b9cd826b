import Aecmio.State.CodeSize

/-!
# The size of a code is that of the code

Every account in a cache has a new code with the hash that it records, or no
new code and a hash whose code is in the database; and the cache of the sizes
has sizes of codes.  All methods keep this but `kill`, which leaves an account
with a new code and the hash of the empty one.
-/

namespace Aecmio

open Keeping Traced

variable [Hashing]

/-! ## The invariant -/

/-- What is known of the code of an account in a cache. -/
structure Coded (known : Set Bytes) (db : OverlayDB) (account : Account) :
    Prop where
  cached : account.codeCache ∈ known
  new : account.hasNewCode = true → sha3 account.codeCache = account.codeHash
  old : account.hasNewCode = false → HasCode db account.codeHash ∧
    (account.codeHash = emptySHA3 ∨ account.codeCache = [] ∨
      sha3 account.codeCache = account.codeHash)

/-- The accounts that a trie holds, and their codes. -/
def Furnished (db : OverlayDB) (trie : Contents) : Prop :=
  ∀ (addr : Address) (text : Bytes), trie.lookup addr.val = some text →
    ∃ fields : AccountFields, text = fields.encoding ∧
      HasCode db fields.codeHash

structure Stocked (known : Set Bytes) (state : State) : Prop where
  codes : ∀ code ∈ state.db.codes, code ∈ known
  trie : Furnished state.db state.trie
  cache : ∀ addr account, state.cache.lookup addr = some account →
    Coded known state.db account
  log : ∀ addr old, ⟨addr, .code old⟩ ∈ state.changeLog → old ∈ known

/-- The cache has sizes of codes. -/
def Honest (known : Set Bytes) (sizes : CodeSizeCache) : Prop :=
  ∀ hash size, sizes.cache.lookup hash = some size →
    ∃ code ∈ known, sha3 code = hash ∧ code.length = size

variable {known : Set Bytes} {db db' : OverlayDB} {account account' : Account}
  {state : State} {sizes : CodeSizeCache} {addr : Address}

theorem Furnished.grows {trie : Contents} (furnished : Furnished db trie)
    (grows : OverlayDB.Grows db db') : Furnished db' trie := by
  intro addr text found
  obtain ⟨fields, same, code⟩ := furnished addr text found
  exact ⟨fields, same, code.grows grows⟩

namespace Coded

theorem grows (coded : Coded known db account)
    (grows : OverlayDB.Grows db db') : Coded known db' account := by
  constructor
  · exact coded.cached
  · exact coded.new
  · intro old
    obtain ⟨code, cached⟩ := coded.old old
    exact ⟨code.grows grows, cached⟩

/-- Only what concerns the code matters. -/
theorem congr (coded : Coded known db account)
    (code : account'.codeCache = account.codeCache)
    (hash : account'.codeHash = account.codeHash)
    (new : account'.hasNewCode = account.hasNewCode) :
    Coded known db account' := by
  constructor
  · rw [code]
    exact coded.cached
  · rw [code, hash, new]
    exact coded.new
  · rw [code, hash, new]
    exact coded.old

theorem setCode {code : Bytes} (inside : code ∈ known) (account : Account) :
    Coded known db (account.setCode code) := by
  constructor
  · exact inside
  · intro new
    rfl
  · intro old
    cases old

theorem created (empty : [] ∈ known) (nonce balance : U256) :
    Coded known db (.created nonce balance) := by
  constructor
  · exact empty
  · intro new
    cases new
  · intro old
    exact ⟨Or.inl rfl, Or.inl rfl⟩

theorem dead (empty : [] ∈ known) : Coded known db .dead := by
  constructor
  · exact empty
  · intro new
    cases new
  · intro old
    exact ⟨Or.inl rfl, Or.inl rfl⟩

theorem stored (empty : [] ∈ known) {fields : AccountFields}
    (code : HasCode db fields.codeHash) :
    Coded known db (.stored fields) := by
  constructor
  · exact empty
  · intro new
    cases new
  · intro old
    exact ⟨code, Or.inr (Or.inl rfl)⟩

/-- An account that is killed may not have a new code. -/
theorem kill (coded : Coded known db account)
    (spared : account.hasNewCode = true → account.codeCache = []) :
    Coded known db account.kill := by
  constructor
  · exact coded.cached
  · intro new
    show sha3 account.codeCache = emptySHA3
    rw [spared new]
    rfl
  · intro old
    exact ⟨Or.inl rfl, Or.inl rfl⟩

/-- An account with the empty code may be killed. -/
theorem kill_of_empty (coded : Coded known db account)
    (empty : account.codeHash = emptySHA3) :
    Coded known db account.kill := by
  constructor
  · exact coded.cached
  · intro new
    show sha3 account.codeCache = emptySHA3
    rw [coded.new new, empty]
  · intro old
    exact ⟨Or.inl rfl, Or.inl rfl⟩

/-- Loading the code from the database. -/
theorem noteCode (coded : Coded known db account)
    (codes : ∀ code ∈ db.codes, code ∈ known)
    (nonempty : account.codeHash ≠ emptySHA3)
    (missing : account.codeCache = []) :
    Coded known db (account.noteCode (db.lookup account.codeHash)) ∧
      sha3 (db.lookup account.codeHash) = account.codeHash ∧
      db.lookup account.codeHash ∈ known := by
  have old : account.hasNewCode = false := by
    apply Bool.eq_false_iff.mpr
    intro new
    apply nonempty
    rw [← coded.new new, missing]
    rfl
  obtain ⟨code, -⟩ := coded.old old
  have hash := code.lookup nonempty
  have inside : db.lookup account.codeHash ∈ known := by
    unfold OverlayDB.lookup at hash ⊢
    cases found : db.codes.find? fun code => sha3 code = account.codeHash with
    | none =>
        rw [found] at hash
        exact absurd hash.symm nonempty
    | some other => exact codes other (List.mem_of_find?_eq_some found)
  refine ⟨⟨inside, ?_, ?_⟩, hash, inside⟩
  · intro new
    rw [show account.hasNewCode = true from new] at old
    cases old
  · intro _
    exact ⟨code, Or.inr (Or.inr hash)⟩

end Coded

/-! ## Changes of a state -/

namespace Stocked

/-- Only the database, the tries, the cache and the log matter. -/
theorem congr {state' : State} (stocked : Stocked known state)
    (db : state'.db = state.db) (trie : state'.trie = state.trie)
    (cache : ∀ addr account, state'.cache.lookup addr = some account →
      Coded known state.db account)
    (log : state'.changeLog = state.changeLog) : Stocked known state' := by
  constructor
  · rw [db]
    exact stocked.codes
  · rw [db, trie]
    exact stocked.trie
  · rw [db]
    exact cache
  · rw [log]
    exact stocked.log

theorem store (stocked : Stocked known state)
    (coded : Coded known state.db account) (addr : Address) :
    Stocked known (state.store addr account) := by
  refine stocked.congr rfl rfl ?_ rfl
  intro other account' found
  by_cases same : other = addr
  · subst same
    simp only [State.store, AList.lookup_insert, Option.some.injEq] at found
    rw [← found]
    exact coded
  · simp only [State.store, AList.lookup_insert_ne same] at found
    exact stocked.cache other account' found

theorem erase (stocked : Stocked known state) (addr : Address) :
    Stocked known { state with cache := state.cache.erase addr } := by
  refine stocked.congr rfl rfl ?_ rfl
  intro other account found
  by_cases same : other = addr
  · subst same
    simp at found
  · simp only [AList.lookup_erase_ne same] at found
    exact stocked.cache other account found

theorem note (stocked : Stocked known state) {kind : ChangeKind}
    (inside : ∀ old, kind = .code old → old ∈ known) (addr : Address) :
    Stocked known (state.note addr kind) := by
  constructor
  · exact stocked.codes
  · exact stocked.trie
  · exact stocked.cache
  · intro other old member
    rcases List.mem_cons.mp member with same | before
    · cases same
      exact inside old rfl
    · exact stocked.log other old before

theorem evict (stocked : Stocked known state) : Stocked known state.evict := by
  unfold State.evict
  refine stocked.congr rfl rfl ?_ rfl
  intro other account found
  simp only at found
  split at found
  · split at found
    · exact (stocked.erase _).cache other account found
    · exact stocked.cache other account found
  · exact stocked.cache other account found

theorem clearCache (stocked : Stocked known state) :
    Stocked known state.clearCacheIfTooLarge := by
  unfold State.clearCacheIfTooLarge
  generalize state.unchangedCacheEntries.length = rounds
  induction rounds generalizing state with
  | zero => exact stocked
  | succ rounds induction =>
      rw [State.clearCacheLoop]
      split
      · exact induction stocked.evict
      · exact stocked

theorem cacheAt (stocked : Stocked known state) (empty : [] ∈ known)
    (addr : Address) : Coded known state.db (state.cacheAt addr) := by
  unfold State.cacheAt
  cases found : state.cache.lookup addr with
  | none => exact Coded.dead empty
  | some account => exact stocked.cache addr account found

end Stocked

omit [Hashing] in
theorem db_clearCache (state : State) :
    state.clearCacheIfTooLarge.db = state.db := by
  unfold State.clearCacheIfTooLarge
  generalize state.unchangedCacheEntries.length = rounds
  induction rounds generalizing state with
  | zero => rfl
  | succ rounds induction =>
      rw [State.clearCacheLoop]
      split
      · exact induction state.evict
      · rfl

/-! ## Loading an account -/

/-- What `account` can do. -/
inductive Loads (addr : Address) (state : State) : Prop where
  | cached (account : Account)
      (found : state.cache.lookup addr = some account)
      (run : (State.account addr).run state = .ok (some account) state)
  | absent (missing : state.cache.lookup addr = none) (absences : List Address)
      (run : (State.account addr).run state = .ok none
        { state with nonExistingAccountsCache := absences })
  | loaded (missing : state.cache.lookup addr = none) (text : Bytes)
      (fields : AccountFields)
      (found : state.trie.lookup addr.val = some text)
      (read : accountFields text = .ok fields)
      (run : (State.account addr).run state = .ok (some (.stored fields))
        { state.clearCacheIfTooLarge.store addr (.stored fields) with
          unchangedCacheEntries :=
            state.clearCacheIfTooLarge.unchangedCacheEntries ++ [addr] })
  | failed (missing : state.cache.lookup addr = none) (error : StateError)
      (text : Bytes) (found : state.trie.lookup addr.val = some text)
      (read : accountFields text = .error error)
      (run : (State.account addr).run state =
        .error error state.clearCacheIfTooLarge)

theorem loads (addr : Address) (state : State) : Loads addr state := by
  cases cached : state.cache.lookup addr with
  | some account =>
      apply Loads.cached account cached
      simp [State.account, cached, EStateM.run_bind, EStateM.run_get]
  | none =>
      by_cases known : addr ∈ state.nonExistingAccountsCache
      · apply Loads.absent cached state.nonExistingAccountsCache
        simp [State.account, cached, known, EStateM.run_bind, EStateM.run_get]
      · cases found : state.trie.lookup addr.val with
        | none =>
            apply Loads.absent cached (addr :: state.nonExistingAccountsCache)
            simp [State.account, cached, known, found, EStateM.run_bind,
              EStateM.run_get]
        | some text =>
            by_cases empty : text = []
            · apply Loads.absent cached (addr :: state.nonExistingAccountsCache)
              simp [State.account, cached, known, found, empty,
                EStateM.run_bind, EStateM.run_get]
            · cases read : accountFields text with
              | ok fields =>
                  apply Loads.loaded cached text fields found read
                  simp [State.account, cached, known, found, empty, read,
                    State.ofExcept, EStateM.run_bind, EStateM.run_get]
              | error error =>
                  apply Loads.failed cached error text found read
                  simp [State.account, cached, known, found, empty, read,
                    State.ofExcept, EStateM.run_bind, EStateM.run_get]
                  rfl

/-! ## The methods that do not use the cache of sizes -/

/-- The invariant as long as the database stays the same. -/
def StockedAt (known : Set Bytes) (db : OverlayDB) (state : State) : Prop :=
  state.db = db ∧ Stocked known state

/-- What is known of an account that may be there. -/
def CodedIn (known : Set Bytes) (db : OverlayDB) (account : Option Account) :
    Prop :=
  ∀ found, account = some found → Coded known db found

theorem Stocked.stored (stocked : Stocked known state) (empty : [] ∈ known)
    {text : Bytes} {fields : AccountFields}
    (found : state.trie.lookup addr.val = some text)
    (read : accountFields text = .ok fields) :
    Coded known state.db (.stored fields) := by
  obtain ⟨written, same, code⟩ := stocked.trie addr text found
  rw [same, AccountFields.accountFields_encoding] at read
  cases read
  exact Coded.stored empty code

section

variable (empty : [] ∈ known)

include empty

theorem keeps_account (addr : Address) :
    Keeps (StockedAt known db) (State.account addr) (CodedIn known db) := by
  intro state holds
  obtain ⟨rfl, stocked⟩ := holds
  cases loads addr state with
  | cached account found run =>
      rw [run]
      refine ⟨⟨rfl, stocked⟩, ?_⟩
      rintro other ⟨⟩
      exact stocked.cache addr account found
  | absent missing absences run =>
      rw [run]
      refine ⟨⟨rfl, ?_⟩, nofun⟩
      exact stocked.congr rfl rfl stocked.cache rfl
  | loaded missing text fields found read run =>
      rw [run]
      have coded := stocked.stored empty found read
      have cleared := stocked.clearCache
      rw [← db_clearCache] at coded
      refine ⟨⟨db_clearCache state, ?_⟩, ?_⟩
      · exact (cleared.store coded addr).congr rfl rfl
          (cleared.store coded addr).cache rfl
      · rintro other ⟨⟩
        rw [db_clearCache] at coded
        exact coded
  | failed missing error text found read run =>
      rw [run]
      exact ⟨db_clearCache state, stocked.clearCache⟩

/-- A method that asks for an account first. -/
theorem keeps_account_bind {α : Type} {addr : Address}
    {next : Option Account → StateM α} {property : α → Prop}
    (some : ∀ account, Coded known db account →
      Keeps (StockedAt known db) (next (some account)) property)
    (none : Keeps (StockedAt known db) (next none) property) :
    Keeps (StockedAt known db) (State.account addr >>= next) property := by
  apply (keeps_account empty addr).bind
  intro account coded
  cases account with
  | none => exact none
  | some account => exact some account (coded account rfl)

omit [Hashing] empty in
theorem keeps_ofExcept {α : Type} {invariant : State → Prop}
    (result : Except StateError α) :
    Keeps invariant (State.ofExcept result) fun value =>
      result = .ok value := by
  cases result with
  | ok value => exact keeps_pure rfl
  | error error => exact keeps_throw error

omit empty in
theorem keeps_store (coded : Coded known db account) (addr : Address) :
    Keeps (StockedAt known db)
      (modify fun state => state.store addr account : StateM PUnit)
      fun _ => True := by
  apply keeps_modify
  rintro state ⟨rfl, stocked⟩
  exact ⟨rfl, stocked.store coded addr⟩

omit empty in
theorem keeps_note {kind : ChangeKind} (addr : Address)
    (inside : ∀ old, kind = .code old → old ∈ known) :
    Keeps (StockedAt known db)
      (modify fun state => state.note addr kind : StateM PUnit)
      fun _ => True := by
  apply keeps_modify
  rintro state ⟨rfl, stocked⟩
  exact ⟨rfl, stocked.note inside addr⟩

omit empty in
/-- A write together with an entry in the log. -/
theorem keeps_store_note {kind : ChangeKind} (addr : Address)
    (coded : Coded known db account)
    (inside : ∀ old, kind = .code old → old ∈ known) :
    Keeps (StockedAt known db)
      (modify fun state => (state.store addr account).note addr kind :
        StateM PUnit)
      fun _ => True := by
  apply keeps_modify
  rintro state ⟨rfl, stocked⟩
  exact ⟨rfl, (stocked.store coded addr).note inside addr⟩

/-- A write through `m_cache[addr]`. -/
theorem keeps_cacheAt {change : Account → Account} (addr : Address)
    (coded : ∀ account, Coded known db account →
      Coded known db (change account)) :
    Keeps (StockedAt known db)
      (modify fun state => state.store addr (change (state.cacheAt addr)) :
        StateM PUnit)
      fun _ => True := by
  apply keeps_modify
  rintro state ⟨rfl, stocked⟩
  exact ⟨rfl, stocked.store (coded _ (stocked.cacheAt empty addr)) addr⟩

omit [Hashing] empty in
theorem keeps_requireAccountStartNonce {invariant : State → Prop} :
    Keeps invariant State.requireAccountStartNonce fun _ => True := by
  apply keeps_get.bind
  intro state holds
  apply Keeps.ite
  · intro invalid
    exact keeps_throw _
  · intro valid
    exact keeps_pure trivial

theorem keeps_createAccount (addr : Address) (nonce balance : U256) :
    Keeps (StockedAt known db)
      (State.createAccount addr (.created nonce balance)) fun _ => True := by
  apply keeps_modify
  rintro state ⟨rfl, stocked⟩
  have stored := stocked.store (Coded.created empty nonce balance) addr
  have noted : Stocked known ((state.store addr (.created nonce balance)).note
      addr .create) := stored.note (by rintro old ⟨⟩) addr
  exact ⟨rfl, noted.congr rfl rfl noted.cache rfl⟩

theorem keeps_balance (addr : Address) :
    Keeps (StockedAt known db) (State.balance addr) fun _ => True := by
  apply keeps_account_bind empty
  · intro account coded
    exact keeps_pure trivial
  · exact keeps_pure trivial

theorem keeps_storage (addr : Address) (key : U256) :
    Keeps (StockedAt known db) (State.storage addr key) fun _ => True := by
  apply keeps_account_bind empty
  · intro account coded
    simp only
    split
    · exact keeps_pure trivial
    · apply keeps_get.bind
      intro state holds
      apply (keeps_ofExcept _).bind
      intro memdb opened
      apply (keeps_ofExcept _).bind
      intro value read
      have cached : Coded known db (account.setStorageCache key value) :=
        coded.congr rfl rfl rfl
      exact (keeps_store cached addr).seq (keeps_pure trivial)
  · exact keeps_pure trivial

theorem keeps_addBalance (addr : Address) (amount : U256) :
    Keeps (StockedAt known db) (State.addBalance addr amount)
      fun _ => True := by
  have noted : Keeps (StockedAt known db)
      (if amount ≠ 0 then
        modify fun state => state.note addr (.balance amount)
      else pure () : StateM PUnit) fun _ => True := by
    apply Keeps.ite
    · intro _
      exact keeps_note addr nofun
    · intro _
      exact keeps_pure trivial
  apply keeps_account_bind empty
  · intro account coded
    have added : Coded known db (account.addBalance amount) :=
      coded.congr rfl rfl rfl
    have rest := (keeps_store added addr).seq noted
    simp only
    apply Keeps.ite
    · intro touched
      refine (keeps_note addr ?_).seq rest
      rintro old ⟨⟩
    · intro untouched
      exact rest
  · exact keeps_requireAccountStartNonce.bind fun nonce _ =>
      (keeps_createAccount empty addr nonce amount).seq noted

theorem keeps_subBalance (addr : Address) (value : U256) :
    Keeps (StockedAt known db) (State.subBalance addr value) fun _ => True := by
  unfold State.subBalance
  apply Keeps.ite
  · intro zero
    exact keeps_pure trivial
  · intro positive
    apply keeps_account_bind empty
    · intro account coded
      apply Keeps.ite
      · intro less
        exact keeps_throw _
      · intro enough
        exact keeps_addBalance empty addr _
    · exact keeps_throw _

theorem keeps_setBalance (addr : Address) (value : U256) :
    Keeps (StockedAt known db) (State.setBalance addr value) fun _ => True := by
  apply keeps_account_bind empty
  · intro account coded
    exact keeps_addBalance empty addr _
  · exact keeps_addBalance empty addr _

theorem keeps_incNonce (addr : Address) :
    Keeps (StockedAt known db) (State.incNonce addr) fun _ => True := by
  apply keeps_account_bind empty
  · intro account coded
    have counted : Coded known db account.incNonce :=
      coded.congr rfl rfl rfl
    exact keeps_store_note addr counted nofun
  · exact keeps_requireAccountStartNonce.bind fun nonce _ =>
      keeps_createAccount empty addr _ _

theorem keeps_setNonce (addr : Address) (newNonce : U256) :
    Keeps (StockedAt known db) (State.setNonce addr newNonce)
      fun _ => True := by
  apply keeps_account_bind empty
  · intro account coded
    have counted : Coded known db (account.setNonce newNonce) :=
      coded.congr rfl rfl rfl
    exact keeps_store_note addr counted nofun
  · exact keeps_createAccount empty addr _ _

theorem keeps_setStorage (addr : Address) (key value : U256) :
    Keeps (StockedAt known db) (State.setStorage addr key value)
      fun _ => True := by
  apply (keeps_storage empty addr key).bind
  intro old _
  refine (keeps_note addr ?_).seq (keeps_cacheAt empty addr
    fun account coded => coded.congr rfl rfl rfl)
  rintro old ⟨⟩

theorem keeps_clearStorage (addr : Address) :
    Keeps (StockedAt known db) (State.clearStorage addr) fun _ => True := by
  apply (keeps_cacheAt empty addr fun account coded => coded).seq
  apply keeps_get.bind
  intro state holds
  apply Keeps.ite
  · intro none
    exact keeps_pure trivial
  · intro some
    refine (keeps_note addr ?_).seq (keeps_cacheAt empty addr
      fun account coded => coded.congr rfl rfl rfl)
    rintro old ⟨⟩

theorem keeps_createContract (addr : Address) :
    Keeps (StockedAt known db) (State.createContract addr) fun _ => True :=
  keeps_requireAccountStartNonce.bind fun nonce _ =>
    keeps_createAccount empty addr nonce 0

omit empty in
theorem keeps_stateRoot {root : H256}
    (furnished : ∀ contents, db.openTrie root = .ok contents →
      Furnished db contents) :
    Keeps (StockedAt known db) (State.setRoot root) fun _ => True := by
  have cleared : Keeps (StockedAt known db) (modify fun state =>
      { state with
        cache := ∅
        unchangedCacheEntries := []
        nonExistingAccountsCache := [] } : StateM PUnit) fun _ => True := by
    apply keeps_modify
    rintro state ⟨rfl, stocked⟩
    refine ⟨rfl, stocked.congr rfl rfl ?_ rfl⟩
    intro addr account found
    cases found
  apply cleared.seq
  apply keeps_get.bind
  rintro current ⟨same, -⟩
  apply (keeps_ofExcept _).bind
  intro trie opened
  rw [same] at opened
  apply keeps_modify
  rintro state ⟨rfl, stocked⟩
  exact ⟨rfl, stocked.codes, furnished trie opened, stocked.cache, stocked.log⟩

/-- The reads that do not load a code. -/
theorem keeps_query {query : Query} (other : ∀ addr, query ≠ .code addr) :
    Keeps (StockedAt known db) query.run fun _ => True := by
  cases query with
  | balance addr =>
      exact (keeps_balance empty addr).seq (keeps_pure trivial)
  | storage addr key =>
      exact (keeps_storage empty addr key).seq (keeps_pure trivial)
  | code addr => exact absurd rfl (other addr)
  | getNonce addr =>
      apply Keeps.seq _ (keeps_pure trivial)
      apply keeps_account_bind empty
      · intro account coded
        exact keeps_pure trivial
      · exact keeps_get.bind fun state holds => keeps_pure trivial
  | codeHash addr =>
      apply Keeps.seq _ (keeps_pure trivial)
      apply keeps_account_bind empty
      · intro account coded
        exact keeps_pure trivial
      · exact keeps_pure trivial
  | addressInUse addr =>
      apply Keeps.seq _ (keeps_pure trivial)
      apply keeps_account_bind empty
      · intro account coded
        exact keeps_pure trivial
      · exact keeps_pure trivial
  | accountNonemptyAndExisting addr =>
      apply Keeps.seq _ (keeps_pure trivial)
      apply keeps_account_bind empty
      · intro account coded
        exact keeps_pure trivial
      · exact keeps_pure trivial
  | addressHasCode addr =>
      apply Keeps.seq _ (keeps_pure trivial)
      apply keeps_account_bind empty
      · intro account coded
        exact keeps_pure trivial
      · exact keeps_pure trivial

omit empty in
/-- Undoing an entry of the log keeps what is known of the account. -/
theorem Coded.undo (coded : Coded known db account)
    {kind : ChangeKind} (inside : ∀ old, kind = .code old → old ∈ known)
    (undone : kind.undo account = some account') :
    Coded known db account' := by
  cases kind with
  | balance value =>
      cases undone
      exact coded.congr rfl rfl rfl
  | storage key value =>
      cases undone
      exact coded.congr rfl rfl rfl
  | storageRoot root =>
      cases undone
      exact coded.congr rfl rfl rfl
  | nonce value =>
      cases undone
      exact coded.congr rfl rfl rfl
  | create => cases undone
  | code old =>
      cases undone
      exact Coded.setCode (inside old rfl) account
  | touch =>
      cases undone
      exact coded.congr rfl rfl rfl

/-- One round of a rollback. -/
theorem Stocked.undo (stocked : Stocked known state) (change : Change)
    (inside : ∀ old, change.kind = .code old → old ∈ known) :
    Stocked known (state.undo change) := by
  have coded := stocked.cacheAt empty change.address
  unfold State.undo
  dsimp only
  cases undone : change.kind.undo (state.cacheAt change.address) with
  | none => exact stocked.erase change.address
  | some account =>
      have stored := stocked.store (coded.undo inside undone) change.address
      exact stored.congr rfl rfl stored.cache rfl

theorem keeps_rollbackLoop (savepoint : Nat) {log : List Change}
    (inside : ∀ addr old, ⟨addr, .code old⟩ ∈ log → old ∈ known) :
    Keeps (StockedAt known db) (State.rollbackLoop savepoint log)
      fun _ => True := by
  induction log with
  | nil =>
      apply Keeps.ite
      · intro done
        exact keeps_pure trivial
      · intro missing
        exact keeps_throw _
  | cons change rest induction =>
      have insideRest : ∀ addr old, ⟨addr, .code old⟩ ∈ rest →
          old ∈ known := fun addr old member =>
        inside addr old (List.mem_cons_of_mem _ member)
      apply Keeps.ite
      · intro done
        exact keeps_pure trivial
      · intro more
        refine Keeps.seq (keeps_modify ?_) (induction insideRest)
        rintro state ⟨rfl, stocked⟩
        have noted : ∀ old, change.kind = .code old → old ∈ known := by
          intro old kind
          apply inside change.address old
          rw [← kind]
          exact List.mem_cons_self
        have undone := stocked.undo empty change noted
        obtain ⟨sameDb, -⟩ := State.undo_frame state change
        exact ⟨sameDb, undone.codes, undone.trie, undone.cache, insideRest⟩

theorem keeps_rollback (savepoint : Nat) :
    Keeps (StockedAt known db) (State.rollback savepoint) fun _ => True := by
  apply keeps_get.bind
  rintro state ⟨-, stocked⟩
  exact keeps_rollbackLoop empty savepoint stocked.log

theorem keeps_transferBalance (sender recipient : Address) (value : U256) :
    Keeps (StockedAt known db) (State.transferBalance sender recipient value)
      fun _ => True :=
  (keeps_subBalance empty sender value).seq
    (keeps_addBalance empty recipient value)

/-- No new code is lost when the account is killed. -/
def Spared (state : State) (addr : Address) : Prop :=
  ∀ account, state.cache.lookup addr = some account →
    account.hasNewCode = true → account.codeCache = []

theorem final_kill (stocked : Stocked known state)
    (spared : Spared state addr) :
    (final (State.kill addr) state).db = state.db ∧
      Stocked known (final (State.kill addr) state) := by
  cases loads addr state with
  | cached account found run =>
      have killed := (stocked.cache addr account found).kill
        (spared account found)
      rw [State.kill, final_bind_of_ok run]
      exact ⟨rfl, stocked.store killed addr⟩
  | absent missing absences run =>
      rw [State.kill, final_bind_of_ok run]
      exact ⟨rfl, stocked.congr rfl rfl stocked.cache rfl⟩
  | loaded missing text fields found read run =>
      have coded := stocked.stored empty found read
      have killed := coded.kill (by
        intro fresh
        cases fresh)
      have kept := (keeps_account empty addr).of_run ⟨rfl, stocked⟩ run
      obtain ⟨⟨sameDb, after⟩, -⟩ := kept
      rw [← sameDb] at killed
      rw [State.kill, final_bind_of_ok run]
      exact ⟨sameDb, after.store killed addr⟩
  | failed missing error text found read run =>
      have left : final (State.kill addr) state =
          state.clearCacheIfTooLarge := by
        unfold final State.kill
        rw [EStateM.run_bind, run]
      rw [left]
      exact ⟨db_clearCache state, stocked.clearCache⟩

end

end Aecmio
