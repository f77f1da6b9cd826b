import Aecmio.Rlp.Fields
import Aecmio.State.CodeSizing

/-!
# The methods with the cache of sizes

All methods keep the invariant of a state and that of the cache, as long as no
account with a new code is killed.  While the invariant holds, the size of the
code of an address is that of its code, whatever the cache forgets.
-/

namespace Aecmio

open Keeping Traced

section

variable [Hashing]

variable {known : Set Bytes} {db db' : OverlayDB} {account : Account}
  {state : State} {sizes : CodeSizeCache} {sized : Sized} {addr : Address}

/-! ## The cache -/

namespace Honest

theorem removeRandomElement (honest : Honest known sizes) :
    Honest known sizes.removeRandomElement := by
  unfold CodeSizeCache.removeRandomElement
  split
  · exact honest
  next removed _ =>
    intro hash size found
    by_cases same : hash = removed
    · subst same
      simp at found
    · simp only [AList.lookup_erase_ne same] at found
      exact honest hash size found

theorem store (honest : Honest known sizes) {code : Bytes}
    (inside : code ∈ known) {hash : H256} (same : sha3 code = hash) :
    Honest known (sizes.store hash code.length) := by
  have room : Honest known (if CodeSizeCache.c_maxSize ≤ sizes.cache.keys.length
      then sizes.removeRandomElement else sizes) := by
    split
    · exact honest.removeRandomElement
    · exact honest
  intro other size found
  simp only [CodeSizeCache.store] at found
  by_cases equal : other = hash
  · subst equal
    rw [AList.lookup_insert] at found
    cases found
    exact ⟨code, inside, same, rfl⟩
  · rw [AList.lookup_insert_ne equal] at found
    exact room other size found

theorem noteSizes (honest : Honest known sized.sizes)
    {entries : List (Address × Account)}
    (coded : ∀ entry ∈ entries, Coded known db entry.2) :
    Honest known (sized.noteSizes entries).sizes := by
  unfold Sized.noteSizes
  simp only
  generalize sized.sizes = sizes at honest
  induction entries generalizing sizes with
  | nil => exact honest
  | cons entry entries induction =>
      have here := coded entry List.mem_cons_self
      rw [List.foldl_cons]
      apply induction
      · intro other member
        exact coded other (List.mem_cons_of_mem _ member)
      · split
        next written =>
          simp only [Bool.and_eq_true] at written
          exact honest.store here.cached (here.new written.2)
        next => exact honest

end Honest

/-! ## Writing accounts to the trie -/

/-- What a commit has written so far. -/
structure Inscribed (known : Set Bytes) (start : OverlayDB)
    (written : OverlayDB × Contents) : Prop where
  grows : OverlayDB.Grows start written.1
  codes : ∀ code ∈ written.1.codes, code ∈ known
  trie : Furnished written.1 written.2

theorem foldlM_writeSlot_codes {slots : List (U256 × U256)}
    {written written' : OverlayDB × Contents}
    (ran : slots.foldlM State.writeSlot written = .ok written') :
    OverlayDB.Grows written.1 written'.1 ∧
      written'.1.codes = written.1.codes := by
  induction slots generalizing written with
  | nil =>
      cases ran
      exact ⟨.refl _, rfl⟩
  | cons slot slots induction =>
      rw [List.foldlM_cons, writeSlot_eq written.1 written.2 slot.1 slot.2]
        at ran
      obtain ⟨grows, codes⟩ := induction ran
      exact ⟨(OverlayDB.grows_insertTrie _ _).trans grows, codes⟩

theorem writeStorage_codes {root : H256}
    (ran : State.writeStorage db account = .ok (db', root)) :
    OverlayDB.Grows db db' ∧ db'.codes = db.codes := by
  unfold State.writeStorage at ran
  dsimp only at ran
  split at ran
  · cases ran
    exact ⟨.refl _, rfl⟩
  · obtain ⟨contents, -, ran⟩ := exists_of_bind_ok ran
    obtain ⟨written, wrote, ran⟩ := exists_of_bind_ok ran
    cases ran
    exact foldlM_writeSlot_codes wrote

theorem Furnished.insert {trie : Contents} (furnished : Furnished db trie)
    {fields : AccountFields} (code : HasCode db fields.codeHash) :
    Furnished db (Finmap.insert addr.val fields.encoding trie) := by
  intro other text found
  by_cases same : other.val = addr.val
  · rw [same, Finmap.lookup_insert] at found
    cases found
    exact ⟨fields, rfl, code⟩
  · rw [Finmap.lookup_insert_of_ne _ same] at found
    exact furnished other text found

theorem Furnished.erase {trie : Contents} (furnished : Furnished db trie)
    (addr : Address) : Furnished db (Finmap.erase addr.val trie) := by
  intro other text found
  by_cases same : other.val = addr.val
  · rw [same, Finmap.lookup_erase] at found
    cases found
  · rw [Finmap.lookup_erase_ne same] at found
    exact furnished other text found

theorem Inscribed.commitAccount {start : OverlayDB}
    {written written' : OverlayDB × Contents}
    (holds : Inscribed known start written)
    (coded : Coded known start account)
    (ran : State.commitAccount written (addr, account) = .ok written') :
    Inscribed known start written' := by
  unfold State.commitAccount at ran
  dsimp only at ran
  split at ran
  · cases ran
    exact holds
  · split at ran
    · cases ran
      refine ⟨holds.grows.trans (OverlayDB.grows_insertTrie _ _), holds.codes,
        ?_⟩
      exact (holds.trie.erase addr).grows (OverlayDB.grows_insertTrie _ _)
    · obtain ⟨⟨middle, root⟩, stored, ran⟩ := exists_of_bind_ok ran
      obtain ⟨text, encoded, ran⟩ := exists_of_bind_ok ran
      obtain ⟨grown, sameCodes⟩ := writeStorage_codes stored
      rw [AccountFields.accountText_eq ⟨account.nonce, account.balance, root,
        account.codeHash⟩] at encoded
      cases encoded
      cases ran
      cases new : account.hasNewCode with
      | true =>
          have placed : HasCode (middle.insertCode account.codeCache)
              account.codeHash :=
            Or.inr ⟨account.codeCache, List.mem_cons_self, coded.new new⟩
          have later := grown.trans
            (OverlayDB.grows_insertCode middle account.codeCache)
          refine ⟨(holds.grows.trans later).trans
            (OverlayDB.grows_insertTrie _ _), ?_, ?_⟩
          · intro code member
            rcases List.mem_cons.mp member with here | before
            · rw [here]
              exact coded.cached
            · rw [sameCodes] at before
              exact holds.codes code before
          · exact ((holds.trie.grows later).insert placed).grows
              (OverlayDB.grows_insertTrie _ _)
      | false =>
          have placed := ((coded.old new).1.grows holds.grows).grows grown
          refine ⟨(holds.grows.trans grown).trans
            (OverlayDB.grows_insertTrie _ _), ?_, ?_⟩
          · intro code member
            exact holds.codes code (sameCodes ▸ member)
          · exact ((holds.trie.grows grown).insert placed).grows
              (OverlayDB.grows_insertTrie _ _)

theorem Inscribed.foldlM {start : OverlayDB}
    {entries : List (Address × Account)}
    {written written' : OverlayDB × Contents}
    (holds : Inscribed known start written)
    (coded : ∀ entry ∈ entries, Coded known start entry.2)
    (ran : entries.foldlM State.commitAccount written = .ok written') :
    Inscribed known start written' := by
  induction entries generalizing written with
  | nil =>
      cases ran
      exact holds
  | cons entry entries induction =>
      rw [List.foldlM_cons] at ran
      obtain ⟨middle, here, ran⟩ := exists_of_bind_ok ran
      have next := holds.commitAccount (coded entry List.mem_cons_self) here
      apply induction next _ ran
      intro other member
      exact coded other (List.mem_cons_of_mem _ member)

theorem Stocked.entries (stocked : Stocked known state) :
    ∀ entry ∈ state.cacheEntries, Coded known state.db entry.2 := by
  intro entry member
  obtain ⟨found, inside, rfl⟩ := List.mem_map.mp member
  exact stocked.cache found.1 found.2 (AList.mem_lookup_iff.mpr inside)

theorem Stocked.removeEmptyAccounts (stocked : Stocked known state) :
    Stocked known state.removeEmptyAccounts := by
  have general : ∀ (entries : List (Address × Account)) (start : State),
      Stocked known start →
      (∀ entry ∈ entries, Coded known start.db entry.2) →
      Stocked known (entries.foldl (fun state entry =>
        if entry.2.isDirty && entry.2.isEmpty then
          state.store entry.1 entry.2.kill
        else state) start) := by
    intro entries
    induction entries with
    | nil =>
        intro start holds coded
        exact holds
    | cons entry entries induction =>
        intro start holds coded
        have here := coded entry List.mem_cons_self
        have rest : ∀ other ∈ entries, Coded known start.db other.2 :=
          fun other member => coded other (List.mem_cons_of_mem _ member)
        rw [List.foldl_cons]
        split
        next removed =>
          simp only [Bool.and_eq_true, Account.isEmpty, beq_iff_eq] at removed
          have killed := here.kill_of_empty removed.2.2
          exact induction _ (holds.store killed entry.1) rest
        next => exact induction start holds rest
  exact general state.cacheEntries state stocked stocked.entries

theorem writeAccounts_ok {entries : List (Address × Account)}
    (stocked : Stocked known state)
    (coded : ∀ entry ∈ entries, Coded known state.db entry.2)
    {written : OverlayDB × Contents}
    (ran : entries.foldlM State.commitAccount (state.db, state.trie) =
      .ok written) : Inscribed known state.db written :=
  Inscribed.foldlM ⟨.refl _, stocked.codes, stocked.trie⟩ coded ran

theorem final_writeAccounts {entries : List (Address × Account)}
    (stocked : Stocked known state)
    (coded : ∀ entry ∈ entries, Coded known state.db entry.2) :
    Stocked known (final (State.writeAccounts entries) state) := by
  unfold final State.writeAccounts
  rw [EStateM.run_bind, EStateM.run_get]
  dsimp only
  rw [EStateM.run_bind]
  cases ran : entries.foldlM State.commitAccount (state.db, state.trie) with
  | error error => exact stocked
  | ok written =>
      have inscribed := writeAccounts_ok stocked coded ran
      refine ⟨inscribed.codes, inscribed.trie, ?_, stocked.log⟩
      intro addr account found
      exact (stocked.cache addr account found).grows inscribed.grows

theorem final_writeCache (stocked : Stocked known state) :
    Stocked known (final State.writeCache state) := by
  unfold final State.writeCache
  rw [EStateM.run_bind, EStateM.run_get]
  dsimp only
  rw [EStateM.run_bind]
  cases ran : state.cacheEntries.foldlM State.commitAccount
      (state.db, state.trie) with
  | error error => exact stocked
  | ok written =>
      have inscribed := writeAccounts_ok stocked stocked.entries ran
      refine ⟨inscribed.codes, inscribed.trie, ?_, ?_⟩
      · intro addr account found
        cases found
      · intro addr old member
        cases member

/-! ## Methods with the cache -/

/-- The invariant of a state with the cache. -/
structure Fits (known : Set Bytes) (sized : Sized) : Prop where
  state : Stocked known sized.state
  sizes : Honest known sized.sizes

/-- The invariant while the database stays the same. -/
def FitsAt (known : Set Bytes) (db : OverlayDB) (sized : Sized) : Prop :=
  StockedAt known db sized.state ∧ Honest known sized.sizes

theorem Fits.fitsAt (fits : Fits known sized) :
    FitsAt known sized.state.db sized :=
  ⟨⟨rfl, fits.state⟩, fits.sizes⟩

theorem FitsAt.fits (fitting : FitsAt known db sized) : Fits known sized :=
  ⟨fitting.1.2, fitting.2⟩

section

variable {α : Type} {method : StateM α} {value : α} {error : StateError}
  {state' : State}

omit [Hashing]

theorem run_onState_ok (ran : method.run sized.state = .ok value state') :
    (onState method).run sized = .ok value { sized with state := state' } := by
  rw [EStateM.run] at ran
  simp only [onState, EStateM.run, ran]

theorem run_onState_error
    (ran : method.run sized.state = .error error state') :
    (onState method).run sized =
      .error error { sized with state := state' } := by
  rw [EStateM.run] at ran
  simp only [onState, EStateM.run, ran]

theorem final_onState (method : StateM α) (sized : Sized) :
    final (onState method) sized =
      { sized with state := final method sized.state } := by
  unfold final
  cases ran : method.run sized.state with
  | ok value state' => rw [run_onState_ok ran]
  | error error state' => rw [run_onState_error ran]

theorem keeps_onState [Hashing] {property : α → Prop}
    (keeps : Keeps (StockedAt known db) method property) :
    Keeps (FitsAt known db) (onState method) property := by
  intro sized fitting
  have kept := keeps sized.state fitting.1
  cases ran : method.run sized.state with
  | ok value state' =>
      rw [ran] at kept
      rw [run_onState_ok ran]
      exact ⟨⟨kept.1, fitting.2⟩, kept.2⟩
  | error error state' =>
      rw [ran] at kept
      rw [run_onState_error ran]
      exact ⟨kept, fitting.2⟩

end

section

variable (empty : [] ∈ known)

include empty

theorem keeps_code (addr : Address) :
    Keeps (FitsAt known db) (Sized.code addr) fun code => code ∈ known := by
  apply (keeps_onState (keeps_account empty addr)).bind
  intro account coded
  cases account with
  | none => exact keeps_pure empty
  | some account =>
      have coded := coded account rfl
      apply Keeps.ite
      · intro none
        exact keeps_pure empty
      · intro nonempty
        apply Keeps.ite
        · intro missing
          apply keeps_get.bind
          rintro current ⟨⟨rfl, stocked⟩, -⟩
          obtain ⟨noted, hash, inside⟩ := coded.noteCode stocked.codes
            nonempty (List.isEmpty_iff.mp missing)
          refine Keeps.seq (keeps_modify ?_) (keeps_pure inside)
          rintro sized ⟨⟨same, stocked⟩, honest⟩
          have noted : Coded known sized.state.db (account.noteCode
              (current.state.db.lookup account.codeHash)) := by
            rw [same]
            exact noted
          refine ⟨⟨same, stocked.store noted addr⟩, ?_⟩
          exact honest.store inside hash
        · intro loaded
          exact keeps_pure coded.cached

/-! ## The code and its size -/

omit empty in
/-- The code of an account is in the database or in the cache. -/
theorem Coded.sha3_codeOf (coded : Coded known db account)
    (empty : [] ∈ known) (codes : ∀ code ∈ db.codes, code ∈ known) :
    sha3 (account.codeOf db) = account.codeHash ∧
      account.codeOf db ∈ known := by
  unfold Account.codeOf
  split
  next none => exact ⟨none.symm, empty⟩
  next nonempty =>
    split
    next missing =>
      obtain ⟨-, hash, inside⟩ := coded.noteCode codes nonempty
        (List.isEmpty_iff.mp missing)
      exact ⟨hash, inside⟩
    next loaded =>
      refine ⟨?_, coded.cached⟩
      cases new : account.hasNewCode with
      | true => exact coded.new new
      | false =>
          rcases (coded.old new).2 with none | missing | same
          · exact absurd none nonempty
          · exact absurd (List.isEmpty_iff.mpr missing) loaded
          · exact same

omit empty in
theorem run_account_cached (found : state.cache.lookup addr = some account) :
    (State.account addr).run state = .ok (some account) state := by
  cases loads addr state with
  | cached other found' run =>
      rw [found] at found'
      cases found'
      exact run
  | absent missing _ _ => cases found.symm.trans missing
  | loaded missing _ _ _ _ _ => cases found.symm.trans missing
  | failed missing _ _ _ _ _ => cases found.symm.trans missing

omit empty in
/-- Asking for an account puts it into the cache, if there is one. -/
theorem run_account (stocked : Stocked known state) (addr : Address) :
    ∃ result state', (State.account addr).run state = .ok result state' ∧
      ∀ account, result = some account →
        state'.cache.lookup addr = some account := by
  cases loads addr state with
  | cached account found run =>
      refine ⟨some account, state, run, ?_⟩
      rintro other ⟨⟩
      exact found
  | absent missing absences run => exact ⟨none, _, run, nofun⟩
  | loaded missing text fields found read run =>
      refine ⟨some (.stored fields), _, run, ?_⟩
      rintro other ⟨⟩
      exact AList.lookup_insert _
  | failed missing error text found read run =>
      obtain ⟨fields, written, -⟩ := stocked.trie addr text found
      rw [written, AccountFields.accountFields_encoding] at read
      cases read

omit empty in
/-- A method that asks for an account does the same when the account is in the
cache already. -/
theorem run_again {α : Type} {rest : Option Account → SizedM α}
    {state' : State}
    (ran : (State.account addr).run sized.state = .ok (some account) state')
    (found : state'.cache.lookup addr = some account) :
    (onState (State.account addr) >>= rest).run sized =
      (onState (State.account addr) >>= rest).run
        { sized with state := state' } := by
  have again : (State.account addr).run (Sized.state
      { sized with state := state' }) = .ok (some account) state' :=
    run_account_cached found
  rw [EStateM.run_bind, run_onState_ok ran, EStateM.run_bind,
    run_onState_ok again]

omit empty in
theorem run_code_cached
    (found : sized.state.cache.lookup addr = some account) :
    ∃ sized', (Sized.code addr).run sized =
      .ok (account.codeOf sized.state.db) sized' := by
  unfold Sized.code Account.codeOf
  rw [EStateM.run_bind, run_onState_ok (run_account_cached found)]
  dsimp only
  split
  · exact ⟨_, rfl⟩
  · split
    · exact ⟨_, rfl⟩
    · exact ⟨_, rfl⟩

omit empty in
theorem run_codeSize_new
    (found : sized.state.cache.lookup addr = some account)
    (new : account.hasNewCode = true) :
    (Sized.codeSize addr).run sized =
      .ok account.codeCache.length sized := by
  unfold Sized.codeSize
  rw [EStateM.run_bind, run_onState_ok (run_account_cached found)]
  dsimp only
  rw [if_pos new]
  rfl

/-- The code of an account in the cache has the hash of the account. -/
theorem run_code (fitting : FitsAt known db sized)
    (found : sized.state.cache.lookup addr = some account) :
    ∃ code sized', (Sized.code addr).run sized = .ok code sized' ∧
      FitsAt known db sized' ∧ code ∈ known ∧
      sha3 code = account.codeHash := by
  obtain ⟨sized', ran⟩ := run_code_cached found
  have kept := (keeps_code empty addr).of_run fitting ran
  obtain ⟨⟨rfl, stocked⟩, honest⟩ := fitting
  have coded := stocked.cache addr account found
  obtain ⟨hash, inside⟩ := coded.sha3_codeOf empty stocked.codes
  exact ⟨_, sized', ran, kept.1, inside, hash⟩

/-- The size of the code of an account in the cache is that of a code with the
hash of the account. -/
theorem run_codeSize (fitting : FitsAt known db sized)
    (found : sized.state.cache.lookup addr = some account) :
    ∃ size sized', (Sized.codeSize addr).run sized = .ok size sized' ∧
      FitsAt known db sized' ∧
      ∃ code ∈ known, sha3 code = account.codeHash ∧ code.length = size := by
  have coded : Coded known db account := by
    obtain ⟨⟨rfl, stocked⟩, -⟩ := fitting
    exact stocked.cache addr account found
  cases new : account.hasNewCode with
  | true =>
      exact ⟨_, sized, run_codeSize_new found new, fitting,
        account.codeCache, coded.cached, coded.new new, rfl⟩
  | false =>
      obtain ⟨code, sized', ran, kept, inside, hash⟩ :=
        run_code empty fitting found
      unfold Sized.codeSize
      rw [EStateM.run_bind, run_onState_ok (run_account_cached found)]
      dsimp only
      rw [if_neg (by simp [new]), EStateM.run_bind, EStateM.run_get]
      dsimp only
      cases cached : sized.sizes.cache.lookup account.codeHash with
      | some size =>
          obtain ⟨other, inside, same⟩ := fitting.2 _ _ cached
          exact ⟨size, _, rfl, fitting, other, inside, same⟩
      | none =>
          dsimp only
          rw [EStateM.run_bind, ran]
          exact ⟨code.length, _, rfl, ⟨kept.1, kept.2.store inside hash⟩,
            code, inside, hash, rfl⟩

theorem keeps_codeSize (addr : Address) :
    Keeps (FitsAt known db) (Sized.codeSize addr) fun _ => True := by
  intro sized fitting
  obtain ⟨result, state', ran, found⟩ := run_account fitting.1.2 addr
  have kept := (keeps_onState (keeps_account empty addr)).of_run fitting
    (run_onState_ok ran)
  cases result with
  | none =>
      unfold Sized.codeSize
      rw [EStateM.run_bind, run_onState_ok ran]
      exact ⟨kept.1, trivial⟩
  | some account =>
      obtain ⟨size, sized', sizes, after, -⟩ :=
        run_codeSize empty kept.1 (found account rfl)
      rw [Sized.codeSize, run_again ran (found account rfl)]
      rw [Sized.codeSize] at sizes
      rw [sizes]
      exact ⟨after, trivial⟩

theorem keeps_setCode (addr : Address) {newCode : Bytes}
    (inside : newCode ∈ known) :
    Keeps (FitsAt known db) (Sized.setCode addr newCode) fun _ => True := by
  apply (keeps_code empty addr).bind
  intro old member
  apply keeps_onState
  refine (keeps_note addr ?_).seq (keeps_cacheAt empty addr
    fun account coded => Coded.setCode inside account)
  rintro other ⟨⟩
  exact member

omit empty in
theorem fits_commit (fits : Fits known sized) (behaviour : CommitBehaviour) :
    Fits known (final (Sized.commit behaviour) sized) := by
  have written : ∀ sized, Fits known sized → Fits known (final (do
      modify fun sized => sized.noteSizes sized.state.cacheEntries
      onState State.writeCache : SizedM Unit) sized) := by
    intro sized fits
    have noted : Fits known (sized.noteSizes sized.state.cacheEntries) :=
      ⟨fits.state, fits.sizes.noteSizes fits.state.entries⟩
    rw [final_bind_of_ok (show (modify fun sized =>
      sized.noteSizes sized.state.cacheEntries : SizedM PUnit).run sized =
        .ok ⟨⟩ _ from rfl), final_onState]
    exact ⟨final_writeCache noted.state, noted.sizes⟩
  cases behaviour with
  | keepEmptyAccounts => exact written sized fits
  | removeEmptyAccounts =>
      have removed : Fits known
          { sized with state := sized.state.removeEmptyAccounts } :=
        ⟨fits.state.removeEmptyAccounts, fits.sizes⟩
      exact written _ removed

theorem Coded.storageSet (allocation : Allocation) :
    Coded known db allocation.storageSet := by
  have general : ∀ (slots : List (U256 × U256)) (account : Account),
      Coded known db account →
      Coded known db (slots.foldl (fun account slot =>
        account.setStorage slot.1 slot.2) account) := by
    intro slots
    induction slots with
    | nil => exact fun account coded => coded
    | cons slot slots induction =>
        intro account coded
        exact induction _ (coded.congr rfl rfl rfl)
  exact general _ _ (Coded.created empty _ _)

theorem Coded.allocation {allocation : Allocation}
    (inside : ∀ code, allocation.code = some code → code ∈ known) :
    Coded known db allocation.account := by
  unfold Allocation.account
  cases code : allocation.code with
  | none => exact Coded.storageSet empty allocation
  | some newCode => exact Coded.setCode (inside newCode code) _

theorem fits_populateFrom (fits : Fits known sized)
    {map : List (Address × Allocation)}
    (inside : ∀ entry ∈ map, ∀ code, entry.2.code = some code →
      code ∈ known) :
    Fits known (final (Sized.populateFrom map) sized) := by
  let entries := map.map fun entry => (entry.1, entry.2.account)
  have coded : ∀ db, ∀ entry ∈ entries, Coded known db entry.2 := by
    intro db entry member
    obtain ⟨found, listed, rfl⟩ := List.mem_map.mp member
    exact Coded.allocation empty (inside found listed)
  have noted : Fits known (sized.noteSizes entries) :=
    ⟨fits.state, fits.sizes.noteSizes (coded sized.state.db)⟩
  rw [Sized.populateFrom, final_bind_of_ok (show (modify
    (Sized.noteSizes entries) : SizedM PUnit).run sized = .ok ⟨⟩ _ from rfl)]
  have written : Fits known (final (onState (State.writeAccounts entries))
      (sized.noteSizes entries)) := by
    rw [final_onState]
    exact ⟨final_writeAccounts noted.state (coded _), noted.sizes⟩
  generalize sized.noteSizes entries = start at written ⊢
  cases ran : (onState (State.writeAccounts entries)).run start with
  | ok value after =>
      rw [final_bind_of_ok ran]
      apply fits_commit
      rw [final, ran] at written
      exact written
  | error error after =>
      rw [final, EStateM.run_bind, ran]
      rw [final, ran] at written
      exact written

end

end

end Aecmio
