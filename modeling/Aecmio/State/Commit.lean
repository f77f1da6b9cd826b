import Aecmio.State.Savepoint

/-!
# Writing the cache to the trie

`commit` writes every dirty account: its overlay to its storage trie, its new
code to the database and its four fields to the state trie.  The database
only grows; as long as no two of its tries or codes have the same hash, it
returns what was written.
-/

namespace Aecmio

variable [Hashing]

/-! ## Growth of the database -/

namespace OverlayDB

omit [Hashing] in
/-- Nothing is taken from the database. -/
structure Grows (db db' : OverlayDB) : Prop where
  tries : db.tries ⊆ db'.tries
  codes : db.codes ⊆ db'.codes

/-- The hash functions do not collide on what the database holds. -/
structure Injective (db : OverlayDB) : Prop where
  tries : ∀ contents ∈ ∅ :: db.tries, ∀ contents' ∈ ∅ :: db.tries,
    trieRoot contents = trieRoot contents' → contents = contents'
  codes : ∀ code ∈ [] :: db.codes, ∀ code' ∈ [] :: db.codes,
    sha3 code = sha3 code' → code = code'

variable {db db' db'' : OverlayDB} {root : H256} {contents : Contents}

omit [Hashing] in
theorem Grows.refl (db : OverlayDB) : Grows db db :=
  ⟨List.Subset.refl _, List.Subset.refl _⟩

omit [Hashing] in
theorem Grows.trans (first : Grows db db') (second : Grows db' db'') :
    Grows db db'' :=
  ⟨List.Subset.trans first.tries second.tries,
    List.Subset.trans first.codes second.codes⟩

omit [Hashing] in
theorem grows_insertTrie (db : OverlayDB) (contents : Contents) :
    Grows db (db.insertTrie contents) :=
  ⟨List.subset_cons_self _ _, List.Subset.refl _⟩

omit [Hashing] in
theorem grows_insertCode (db : OverlayDB) (code : Bytes) :
    Grows db (db.insertCode code) :=
  ⟨List.Subset.refl _, List.subset_cons_self _ _⟩

theorem openTrie_spec (opened : db.openTrie root = .ok contents) :
    contents ∈ ∅ :: db.tries ∧ trieRoot contents = root := by
  unfold openTrie at opened
  split at opened
  · rename_i empty
    cases opened
    exact ⟨List.mem_cons_self, empty.symm⟩
  · split at opened
    · rename_i found
      cases opened
      have matching := List.find?_some found
      exact ⟨List.mem_cons_of_mem _ (List.mem_of_find?_eq_some found),
        by simpa using matching⟩
    · cases opened

theorem openTrie_of_mem (member : contents ∈ ∅ :: db.tries) :
    ∃ opened, db.openTrie (trieRoot contents) = .ok opened := by
  unfold openTrie
  split
  · exact ⟨∅, rfl⟩
  · rename_i nonempty
    have inside : contents ∈ db.tries := by
      rcases List.mem_cons.mp member with empty | inside
      · subst empty
        exact absurd rfl nonempty
      · exact inside
    cases found : db.tries.find?
        fun other => trieRoot other = trieRoot contents with
    | some other => exact ⟨other, rfl⟩
    | none =>
        have none := List.find?_eq_none.mp found contents inside
        simp at none

theorem Injective.openTrie (injective : db.Injective)
    (member : contents ∈ ∅ :: db.tries) :
    db.openTrie (trieRoot contents) = .ok contents := by
  obtain ⟨opened, found⟩ := openTrie_of_mem member
  obtain ⟨inside, same⟩ := openTrie_spec found
  rw [found, injective.tries opened inside contents member same]

omit [Hashing] in
theorem Grows.mem (grows : Grows db db') (member : contents ∈ ∅ :: db.tries) :
    contents ∈ ∅ :: db'.tries := by
  rcases List.mem_cons.mp member with empty | inside
  · rw [empty]
    exact List.mem_cons_self
  · exact List.mem_cons_of_mem _ (grows.tries inside)

theorem Grows.opens (grows : Grows db db')
    (opened : db.openTrie root = .ok contents) :
    ∃ contents', db'.openTrie root = .ok contents' := by
  obtain ⟨member, rfl⟩ := openTrie_spec opened
  exact openTrie_of_mem (grows.mem member)

/-- Without collisions, a larger database opens a root with the same
contents. -/
theorem Grows.openTrie (grows : Grows db db') (injective : db'.Injective)
    (opened : db.openTrie root = .ok contents) :
    db'.openTrie root = .ok contents := by
  obtain ⟨member, rfl⟩ := openTrie_spec opened
  exact injective.openTrie (grows.mem member)

theorem Injective.lookup (injective : db.Injective) {code : Bytes}
    (member : code ∈ [] :: db.codes) : db.lookup (sha3 code) = code := by
  unfold OverlayDB.lookup
  cases found : db.codes.find? fun other => sha3 other = sha3 code with
  | some other =>
      have matching := List.find?_some found
      exact injective.codes other
        (List.mem_cons_of_mem _ (List.mem_of_find?_eq_some found)) code member
        (by simpa using matching)
  | none =>
      rcases List.mem_cons.mp member with empty | inside
      · rw [empty]
        rfl
      · have none := List.find?_eq_none.mp found code inside
        simp at none

end OverlayDB

section

variable {db db' : OverlayDB} {root hash : H256} {account : Account}

open OverlayDB

theorem StorageTrie.grows (trie : StorageTrie db root) (grows : Grows db db')
    (injective : db'.Injective) :
    StorageTrie db' root ∧ ∀ key, db'.slot root key = db.slot root key := by
  obtain ⟨contents, opened, encoded⟩ := trie
  have opened' := grows.openTrie injective opened
  refine ⟨⟨contents, opened', encoded⟩, ?_⟩
  intro key
  simp only [OverlayDB.slot, opened, opened']

omit [Hashing] in
theorem mem_codes_grows {code : Bytes} (grows : Grows db db')
    (member : code ∈ [] :: db.codes) : code ∈ [] :: db'.codes := by
  rcases List.mem_cons.mp member with empty | inside
  · rw [empty]
    exact List.mem_cons_self
  · exact List.mem_cons_of_mem _ (grows.codes inside)

theorem HasCode.grows (has : HasCode db hash) (grows : Grows db db') :
    HasCode db' hash := by
  rcases has with empty | ⟨code, member, same⟩
  · exact .inl empty
  · exact .inr ⟨code, grows.codes member, same⟩

theorem HasCode.lookup_grows (has : HasCode db hash) (grows : Grows db db')
    (injective : db'.Injective) (nonempty : hash ≠ emptySHA3) :
    db'.lookup hash = db.lookup hash := by
  have same := has.lookup nonempty
  have member : db.lookup hash ∈ [] :: db.codes := by
    unfold OverlayDB.lookup
    cases found : db.codes.find? fun code => sha3 code = hash with
    | none => exact List.mem_cons_self
    | some code =>
        exact List.mem_cons_of_mem _ (List.mem_of_find?_eq_some found)
  have found := injective.lookup (mem_codes_grows grows member)
  rwa [same] at found

end

/-! ## Writing the storage of an account -/

omit [Hashing] in
theorem storageKey_injective : Function.Injective storageKey := by
  intro first second same
  have range : ∀ key : U256, key.toNat < 256 ^ 32 := by
    intro key
    have bound := key.isLt
    omega
  apply BitVec.eq_of_toNat_eq
  rw [← fromBigEndian_toBigEndian (range first),
    ← fromBigEndian_toBigEndian (range second)]
  exact congrArg fromBigEndian same

/-- The contents of a storage trie after one slot is written. -/
def putSlot (contents : Contents) (key value : U256) : Contents :=
  if value ≠ 0 then
    Finmap.insert (storageKey key) (storageEncoding value) contents
  else Finmap.erase (storageKey key) contents

/-- What a storage trie holds for a value. -/
def slotText (value : U256) : Option Bytes :=
  if value = 0 then none else some (storageEncoding value)

omit [Hashing] in
theorem lookup_putSlot (contents : Contents) (key value other : U256) :
    (putSlot contents key value).lookup (storageKey other) =
      if other = key then slotText value
      else contents.lookup (storageKey other) := by
  unfold putSlot slotText
  by_cases zero : value = 0
  · by_cases same : other = key
    · subst same
      simp [zero]
    · have different : storageKey other ≠ storageKey key := by
        intro equal
        exact same (storageKey_injective equal)
      simp [zero, same, different]
  · by_cases same : other = key
    · subst same
      rw [if_pos zero, if_pos rfl, if_neg zero]
      simp
    · have different : storageKey other ≠ storageKey key := by
        intro equal
        exact same (storageKey_injective equal)
      rw [if_pos zero, if_neg same]
      simp [different]

omit [Hashing] in
/-- Writing a value that is there already changes nothing. -/
theorem putSlot_same {contents : Contents} {key value : U256}
    (there : contents.lookup (storageKey key) = slotText value) :
    putSlot contents key value = contents := by
  unfold putSlot
  unfold slotText at there
  generalize storageKey key = location at there ⊢
  apply Finmap.ext_lookup
  intro text
  by_cases zero : value = 0
  · rw [if_pos zero] at there
    rw [if_neg (not_not.mpr zero)]
    by_cases same : text = location
    · rw [same, Finmap.lookup_erase, there]
    · rw [Finmap.lookup_erase_ne same]
  · rw [if_neg zero] at there
    rw [if_pos zero]
    by_cases same : text = location
    · rw [same, Finmap.lookup_insert, there]
    · rw [Finmap.lookup_insert_of_ne _ same]

/-- The overlay written to a storage trie. -/
def putOverlay (contents : Contents)
    (overlay : List (Sigma fun _ : U256 => U256)) : Contents :=
  overlay.foldl (fun contents slot => putSlot contents slot.1 slot.2) contents

omit [Hashing] in
theorem lookup_putOverlay {overlay : List (Sigma fun _ : U256 => U256)}
    (nodup : overlay.NodupKeys) (contents : Contents) (key : U256) :
    (putOverlay contents overlay).lookup (storageKey key) =
      match overlay.dlookup key with
      | some value => slotText value
      | none => contents.lookup (storageKey key) := by
  induction overlay generalizing contents with
  | nil => rfl
  | cons slot overlay induction =>
      obtain ⟨absent, nodup⟩ := List.nodupKeys_cons.mp nodup
      have step : putOverlay contents (slot :: overlay) =
          putOverlay (putSlot contents slot.1 slot.2) overlay := rfl
      rw [step, induction nodup, lookup_putSlot]
      by_cases same : key = slot.1
      · subst same
        rw [List.dlookup_eq_none.mpr absent, if_pos rfl,
          List.dlookup_cons_eq]
      · rw [if_neg same, List.dlookup_cons_ne _ _ same]

omit [Hashing] in
theorem putOverlay_same {overlay : List (Sigma fun _ : U256 => U256)}
    {contents : Contents}
    (there : ∀ slot ∈ overlay,
      contents.lookup (storageKey slot.1) = slotText slot.2) :
    putOverlay contents overlay = contents := by
  induction overlay with
  | nil => rfl
  | cons slot overlay induction =>
      have step : putOverlay contents (slot :: overlay) =
          putOverlay (putSlot contents slot.1 slot.2) overlay := rfl
      rw [step, putSlot_same (there slot List.mem_cons_self)]
      exact induction fun other member =>
        there other (List.mem_cons_of_mem _ member)

omit [Hashing] in
theorem writeSlot_eq (db : OverlayDB) (contents : Contents)
    (key value : U256) :
    State.writeSlot (db, contents) (key, value) =
      .ok (db.insertTrie (putSlot contents key value),
        putSlot contents key value) := by
  unfold State.writeSlot putSlot
  by_cases zero : value = 0
  · simp [zero, pure, Except.pure]
  · simp only [ne_eq, zero, not_false_eq_true, if_true, storageText_eq]
    rfl

omit [Hashing] in
theorem foldlM_writeSlot (db : OverlayDB) (contents : Contents)
    (overlay : List (Sigma fun _ : U256 => U256)) :
    ∃ db', (overlay.map fun slot => (slot.1, slot.2)).foldlM State.writeSlot
        (db, contents) = .ok (db', putOverlay contents overlay) ∧
      OverlayDB.Grows db db' ∧
      (overlay ≠ [] → putOverlay contents overlay ∈ db'.tries) := by
  induction overlay generalizing db contents with
  | nil => exact ⟨db, rfl, .refl db, fun nonempty => absurd rfl nonempty⟩
  | cons slot overlay induction =>
      obtain ⟨db', ran, grows, member⟩ := induction
        (db.insertTrie (putSlot contents slot.1 slot.2))
        (putSlot contents slot.1 slot.2)
      refine ⟨db', ?_, (OverlayDB.grows_insertTrie db _).trans grows, ?_⟩
      · rw [List.map_cons, List.foldlM_cons, writeSlot_eq]
        exact ran
      · intro _
        cases overlay with
        | nil => exact grows.tries List.mem_cons_self
        | cons next rest => exact member (by simp)

theorem StorageTrie.lookup {db : OverlayDB} {root : H256}
    {contents : Contents} (trie : StorageTrie db root)
    (opened : db.openTrie root = .ok contents) (key : U256) :
    contents.lookup (storageKey key) = slotText (db.slot root key) := by
  obtain ⟨contents', opened', encoded⟩ := trie
  obtain rfl : contents = contents' := by
    rw [opened] at opened'
    exact Except.ok.inj opened'
  cases found : contents.lookup (storageKey key) with
  | none =>
      have zero : db.slot root key = 0 := by
        simp [OverlayDB.slot, opened, found, storageValue]
      rw [zero]
      rfl
  | some text =>
      obtain ⟨value, nonzero, rfl⟩ := encoded key text found
      have read : db.slot root key = value := by
        simp [OverlayDB.slot, opened, found, storageValue_storageEncoding]
      rw [read, slotText, if_neg nonzero]

omit [Hashing] in
theorem slotText_injective : Function.Injective slotText := by
  intro first second same
  unfold slotText at same
  by_cases zero : first = 0 <;> by_cases zero' : second = 0
  · rw [zero, zero']
  · rw [if_pos zero, if_neg zero'] at same
    cases same
  · rw [if_neg zero, if_pos zero'] at same
    cases same
  · rw [if_neg zero, if_neg zero'] at same
    have read := congrArg storageValue (Option.some.inj same)
    rw [storageValue_storageEncoding, storageValue_storageEncoding] at read
    exact Except.ok.inj read

/-- The root that is written opens a trie with the account's storage. -/
theorem writeStorage_spec {db current : OverlayDB} {account : Account}
    (trie : StorageTrie db account.storageRoot)
    (grows : OverlayDB.Grows db current) :
    ∃ current' root, State.writeStorage current account =
        .ok (current', root) ∧
      OverlayDB.Grows current current' ∧
      ∀ last, OverlayDB.Grows current' last → last.Injective →
        StorageTrie last root ∧
        (∀ key, last.slot root key = account.value db key) ∧
        ((∀ key, account.value db key = db.slot account.storageRoot key) →
          root = account.storageRoot) := by
  have whole := trie
  obtain ⟨contents, opened, encoded⟩ := trie
  by_cases empty : account.storageOverlay.entries = []
  · refine ⟨current, account.storageRoot, ?_, .refl current, ?_⟩
    · simp [State.writeStorage, empty, pure, Except.pure]
    · intro last later injective
      obtain ⟨trie', slots⟩ := whole.grows (grows.trans later) injective
      refine ⟨trie', ?_, fun _ => rfl⟩
      intro key
      have missing : account.storageOverlay.lookup key = none := by
        simp [AList.lookup, empty]
      rw [slots, Account.value, missing]
  · obtain ⟨contents', opened'⟩ := grows.opens opened
    obtain ⟨current', ran, grew, member⟩ := foldlM_writeSlot current contents'
      account.storageOverlay.entries
    refine ⟨current', trieRoot
      (putOverlay contents' account.storageOverlay.entries), ?_, grew, ?_⟩
    · simp [State.writeStorage, empty, opened', ran, bind, Except.bind, pure,
        Except.pure]
    · intro last later injective
      have same : contents' = contents := by
        have first := (grew.trans later).openTrie injective opened'
        have second :=
          (grows.trans (grew.trans later)).openTrie injective opened
        rw [first] at second
        exact Except.ok.inj second
      subst same
      have slots := fun key => lookup_putOverlay
        account.storageOverlay.nodupKeys contents' key
      have reopened := injective.openTrie (later.mem
        (List.mem_cons_of_mem _ (member empty)))
      have texts : ∀ key, (putOverlay contents'
          account.storageOverlay.entries).lookup (storageKey key) =
            slotText (account.value db key) := by
        intro key
        rw [slots, Account.value, AList.lookup]
        cases account.storageOverlay.entries.dlookup key with
        | some value => rfl
        | none => exact whole.lookup opened key
      have written : StorageTrie last (trieRoot
          (putOverlay contents' account.storageOverlay.entries)) := by
        refine ⟨_, reopened, ?_⟩
        intro key text found
        rw [texts] at found
        unfold slotText at found
        split at found
        · cases found
        · rename_i nonzero
          exact ⟨_, nonzero, (Option.some.inj found).symm⟩
      refine ⟨written, ?_, ?_⟩
      · intro key
        apply slotText_injective
        exact (written.lookup reopened key).symm.trans (texts key)
      · intro unchanged
        have stays : putOverlay contents' account.storageOverlay.entries =
            contents' := by
          apply putOverlay_same
          intro slot member
          have value : account.value db slot.1 = slot.2 := by
            have found : account.storageOverlay.lookup slot.1 =
                some slot.2 := AList.mem_lookup_iff.mpr member
            rw [Account.value, found]
          rw [whole.lookup opened, ← unchanged, value]
        rw [stays]
        exact (OverlayDB.openTrie_spec opened).2

/-! ## Writing the accounts -/

/-- The fields written for an account stand for what it was. -/
structure Written (db last : OverlayDB) (account : Account)
    (fields : AccountFields) : Prop where
  nonce : fields.nonce = account.nonce
  balance : fields.balance = account.balance
  codeHash : fields.codeHash = account.codeHash
  storage : StorageTrie last fields.storageRoot
  value : ∀ key, last.slot fields.storageRoot key = account.value db key
  code : HasCode last fields.codeHash
  codeOf : (Account.stored fields).codeOf last = account.codeOf db
  unchanged :
    (∀ key, account.value db key = db.slot account.storageRoot key) →
      fields.storageRoot = account.storageRoot

/-- What the trie holds for the address of a cached account before and after
it is written. -/
def Outcome (db last : OverlayDB) (account : Account)
    (before after : Option Bytes) : Prop :=
  if account.isUnchanged = true then after = before
  else if account.isAlive = false then after = none
  else ∃ fields : AccountFields,
    after = some fields.encoding ∧ Written db last account fields

theorem codeOf_written {db last : OverlayDB} {account : Account}
    {root : H256} (usable : Usable db account) (alive : account.isAlive = true)
    (grows : OverlayDB.Grows db last) (injective : last.Injective)
    (noted : account.hasNewCode = true → account.codeCache ∈ last.codes) :
    HasCode last account.codeHash ∧
      (Account.stored ⟨account.nonce, account.balance, root,
        account.codeHash⟩).codeOf last = account.codeOf db := by
  cases new : account.hasNewCode with
  | false =>
      obtain ⟨has, cached⟩ := usable.kept alive new
      refine ⟨has.grows grows, ?_⟩
      by_cases empty : account.codeHash = emptySHA3
      · simp [Account.codeOf, Account.stored, empty]
      · have found := has.lookup_grows grows injective empty
        rcases cached with none | loaded
        · simp [Account.codeOf, Account.stored, Account.dead, empty, found,
            none]
        · simp [Account.codeOf, Account.stored, Account.dead, empty, found,
            loaded]
  | true =>
      have hash := usable.new alive new
      have member := noted new
      refine ⟨.inr ⟨_, member, hash⟩, ?_⟩
      by_cases empty : account.codeHash = emptySHA3
      · simp [Account.codeOf, Account.stored, empty]
      · have found := injective.lookup (List.mem_cons_of_mem _ member)
        rw [hash] at found
        have nonempty : account.codeCache ≠ [] := by
          intro none
          rw [none] at hash
          exact empty hash.symm
        simp [Account.codeOf, Account.stored, Account.dead, empty, found,
          nonempty]


theorem commitAccount_spec {db current : OverlayDB} {account : Account}
    (usable : Usable db account) (grows : OverlayDB.Grows db current)
    (trie : Contents) (addr : Address) :
    ∃ current' trie', State.commitAccount (current, trie) (addr, account) =
        .ok (current', trie') ∧
      OverlayDB.Grows current current' ∧
      (trie ∈ ∅ :: current.tries → trie' ∈ ∅ :: current'.tries) ∧
      (∀ text, text ≠ addr.val → trie'.lookup text = trie.lookup text) ∧
      ∀ last, OverlayDB.Grows current' last → last.Injective →
        Outcome db last account (trie.lookup addr.val)
          (trie'.lookup addr.val) := by
  cases clean : account.isUnchanged with
  | true =>
      refine ⟨current, trie, ?_, .refl current, id, fun _ _ => rfl, ?_⟩
      · simp [State.commitAccount, Account.isDirty, clean, pure, Except.pure]
      · intro last _ _
        simp [Outcome, clean]
  | false =>
      cases alive : account.isAlive with
      | false =>
          let trie' : Contents := Finmap.erase addr.val trie
          refine ⟨current.insertTrie trie', trie', ?_,
            OverlayDB.grows_insertTrie current trie', ?_, ?_, ?_⟩
          · simp [State.commitAccount, Account.isDirty, clean, alive, pure,
              Except.pure, trie']
          · intro _
            simp [OverlayDB.insertTrie]
          · intro text different
            exact Finmap.lookup_erase_ne different
          · intro last _ _
            simp [Outcome, clean, alive, trie']
      | true =>
          obtain ⟨stored, root, ran, grew, written⟩ :=
            writeStorage_spec usable.storage grows
          let noted := if account.hasNewCode then
            stored.insertCode account.codeCache else stored
          let fields : AccountFields :=
            ⟨account.nonce, account.balance, root, account.codeHash⟩
          let trie' : Contents := Finmap.insert addr.val fields.encoding trie
          have text := fields.accountText_eq
          have coded : OverlayDB.Grows stored noted := by
            unfold noted
            split
            · exact OverlayDB.grows_insertCode stored _
            · exact .refl stored
          have inserted := OverlayDB.grows_insertTrie noted trie'
          refine ⟨noted.insertTrie trie', trie', ?_,
            grew.trans (coded.trans inserted), ?_, ?_, ?_⟩
          · simp only [fields] at text
            simp [State.commitAccount, Account.isDirty, clean, alive, ran,
              text, bind, Except.bind, pure, Except.pure, noted, trie', fields]
          · intro _
            simp [OverlayDB.insertTrie]
          · intro text different
            exact Finmap.lookup_insert_of_ne trie different
          · intro last later injective
            have whole := coded.trans (inserted.trans later)
            obtain ⟨storage, value, unchanged⟩ :=
              written last whole injective
            have codes : account.hasNewCode = true →
                account.codeCache ∈ last.codes := by
              intro new
              apply (inserted.trans later).codes
              simp [noted, new, OverlayDB.insertCode]
            obtain ⟨code, codeOf⟩ := @codeOf_written _ _ _ _ root usable alive
              (grows.trans (grew.trans whole)) injective codes
            have found : trie'.lookup addr.val = some fields.encoding :=
              Finmap.lookup_insert trie
            simp only [Outcome, clean, alive, Bool.false_eq_true, if_false,
              Bool.true_eq_false]
            exact ⟨fields, found, rfl, rfl, rfl, storage, value, code, codeOf,
              unchanged⟩

/-- The loop of `dev::aec::commit` over the entries of the cache. -/
theorem foldlM_commitAccount {db : OverlayDB}
    {entries : List (Sigma fun _ : Address => Account)}
    (nodup : entries.NodupKeys)
    (usable : ∀ entry ∈ entries, Usable db entry.2) (current : OverlayDB)
    (grows : OverlayDB.Grows db current) (trie : Contents) :
    ∃ current' trie', (entries.map fun entry => (entry.1, entry.2)).foldlM
          State.commitAccount (current, trie) = .ok (current', trie') ∧
      OverlayDB.Grows current current' ∧
      (trie ∈ ∅ :: current.tries → trie' ∈ ∅ :: current'.tries) ∧
      (∀ text, (∀ entry ∈ entries, text ≠ entry.1.val) →
        trie'.lookup text = trie.lookup text) ∧
      ∀ last, OverlayDB.Grows current' last → last.Injective →
        ∀ entry ∈ entries, Outcome db last entry.2
          (trie.lookup entry.1.val) (trie'.lookup entry.1.val) := by
  induction entries generalizing current trie with
  | nil =>
      exact ⟨current, trie, rfl, .refl current, id, fun _ _ => rfl,
        fun _ _ _ _ member => absurd member List.not_mem_nil⟩
  | cons entry entries induction =>
      obtain ⟨absent, nodup⟩ := List.nodupKeys_cons.mp nodup
      obtain ⟨middle, trie₁, ran₁, grows₁, inside₁, frame₁, outcome₁⟩ :=
        commitAccount_spec (usable entry List.mem_cons_self) grows trie entry.1
      obtain ⟨current', trie', ran, grows', inside, frame, outcome⟩ :=
        induction nodup
          (fun other member => usable other (List.mem_cons_of_mem _ member))
          middle (grows.trans grows₁) trie₁
      have apart : ∀ other ∈ entries, entry.1.val ≠ other.1.val := by
        intro other member same
        apply absent
        rw [Subtype.ext same]
        exact List.mem_keys_of_mem member
      refine ⟨current', trie', ?_, grows₁.trans grows', inside ∘ inside₁, ?_,
        ?_⟩
      · rw [List.map_cons, List.foldlM_cons, ran₁]
        exact ran
      · intro text different
        rw [frame text fun other member =>
            different other (List.mem_cons_of_mem _ member),
          frame₁ text (different entry List.mem_cons_self)]
      · intro last later injective other member
        rcases List.mem_cons.mp member with rfl | member
        · rw [frame _ apart]
          exact outcome₁ last (grows'.trans later) injective
        · have here := outcome last later injective other member
          rwa [frame₁ _ fun same => apart other member same.symm] at here


/-! ## Commit -/

/-- The account as `commit` finds it in the cache. -/
def swept (behaviour : CommitBehaviour) (account : Account) : Account :=
  if behaviour = .removeEmptyAccounts ∧ account.isDirty = true ∧
      account.isEmpty = true then account.kill
  else account

namespace State

theorem foldl_removeEmpty (state : State)
    {entries : List (Sigma fun _ : Address => Account)}
    (nodup : entries.NodupKeys) :
    let result := (entries.map fun entry => (entry.1, entry.2)).foldl
      (fun (state : State) entry =>
        if entry.2.isDirty && entry.2.isEmpty then
          state.store entry.1 entry.2.kill
        else state) state
    result = { state with cache := result.cache } ∧
      ∀ addr, result.cache.lookup addr =
        match entries.dlookup addr with
        | some account =>
            if account.isDirty && account.isEmpty then some account.kill
            else state.cache.lookup addr
        | none => state.cache.lookup addr := by
  induction entries generalizing state with
  | nil => exact ⟨rfl, fun _ => rfl⟩
  | cons entry entries induction =>
      obtain ⟨absent, nodup⟩ := List.nodupKeys_cons.mp nodup
      cases empty : entry.2.isDirty && entry.2.isEmpty with
      | false =>
          obtain ⟨frame, lookup⟩ := induction state nodup
          simp only [List.map_cons, List.foldl_cons, empty,
            Bool.false_eq_true, if_false]
          refine ⟨frame, ?_⟩
          intro addr
          rw [lookup addr]
          by_cases same : addr = entry.1
          · subst same
            rw [List.dlookup_eq_none.mpr absent, List.dlookup_cons_eq]
            simp [empty]
          · rw [List.dlookup_cons_ne _ _ same]
      | true =>
          obtain ⟨frame, lookup⟩ :=
            induction (state.store entry.1 entry.2.kill) nodup
          simp only [List.map_cons, List.foldl_cons, empty, if_true]
          refine ⟨frame, ?_⟩
          intro addr
          rw [lookup addr]
          by_cases same : addr = entry.1
          · subst same
            rw [List.dlookup_eq_none.mpr absent, List.dlookup_cons_eq]
            simp [empty, store]
          · rw [List.dlookup_cons_ne _ _ same]
            simp [store, same]

theorem lookup_removeEmptyAccounts (state : State) (addr : Address) :
    state.removeEmptyAccounts.cache.lookup addr =
      (state.cache.lookup addr).map (swept .removeEmptyAccounts) := by
  have lookup := (foldl_removeEmpty state state.cache.nodupKeys).2 addr
  have entry : state.cache.entries.dlookup addr = state.cache.lookup addr :=
    rfl
  rw [entry] at lookup
  refine Eq.trans lookup ?_
  cases state.cache.lookup addr with
  | none => rfl
  | some account =>
      cases dirty : account.isDirty <;> cases empty : account.isEmpty <;>
        simp [swept, dirty, empty]

theorem frame_removeEmptyAccounts (state : State) :
    state.removeEmptyAccounts =
      { state with cache := state.removeEmptyAccounts.cache } :=
  (foldl_removeEmpty state state.cache.nodupKeys).1

end State

theorem storageTrie_empty (db : OverlayDB) : StorageTrie db emptyTrieRoot := by
  refine ⟨∅, by simp [OverlayDB.openTrie], ?_⟩
  intro key text found
  simp at found

theorem usable_kill {db : OverlayDB} (account : Account) :
    Usable db account.kill :=
  ⟨storageTrie_empty db, fun nonempty => absurd rfl nonempty,
    fun alive => Bool.noConfusion alive, fun alive => Bool.noConfusion alive⟩

theorem Usable.swept {db : OverlayDB} {account : Account}
    (usable : Usable db account) (behaviour : CommitBehaviour) :
    Usable db (swept behaviour account) := by
  unfold Aecmio.swept
  split
  · exact usable_kill account
  · exact usable

/-- What `commit` leaves. -/
structure Committed (behaviour : CommitBehaviour) (state state' : State) :
    Prop where
  cache : state'.cache = ∅
  changeLog : state'.changeLog = []
  absent : state'.nonExistingAccountsCache = state.nonExistingAccountsCache
  startNonce : state'.accountStartNonce = state.accountStartNonce
  grows : OverlayDB.Grows state.db state'.db
  opened : state'.trie ∈ ∅ :: state'.db.tries
  frame : ∀ text, (∀ addr, state.cache.lookup addr ≠ none →
    text ≠ addr.val) → state'.trie.lookup text = state.trie.lookup text
  outcome : state'.db.Injective →
    ∀ addr account, state.cache.lookup addr = some account →
      Outcome state.db state'.db (swept behaviour account)
        (state.trie.lookup addr.val) (state'.trie.lookup addr.val)

theorem run_commit_of_usable {state : State}
    (opened : state.trie ∈ ∅ :: state.db.tries)
    (usable : ∀ addr account, state.cache.lookup addr = some account →
      Usable state.db account) (behaviour : CommitBehaviour) :
    ∃ state', (State.commit behaviour).run state = .ok () state' ∧
      Committed behaviour state state' := by
  -- The state whose cache is written.
  obtain ⟨ready, began, frame, lookup⟩ : ∃ ready : State,
      (State.commit behaviour).run state = State.writeCache.run ready ∧
      ready = { state with cache := ready.cache } ∧
      ∀ addr, ready.cache.lookup addr =
        (state.cache.lookup addr).map (swept behaviour) := by
    cases behaviour with
    | keepEmptyAccounts =>
        refine ⟨state, rfl, rfl, ?_⟩
        intro addr
        cases state.cache.lookup addr <;> simp [swept]
    | removeEmptyAccounts =>
        exact ⟨state.removeEmptyAccounts, rfl,
          state.frame_removeEmptyAccounts,
          state.lookup_removeEmptyAccounts⟩
  have usableReady : ∀ entry ∈ ready.cache.entries,
      Usable state.db entry.2 := by
    intro entry member
    have found : ready.cache.lookup entry.1 = some entry.2 :=
      AList.mem_lookup_iff.mpr member
    rw [lookup] at found
    obtain ⟨account, before, same⟩ := Option.map_eq_some_iff.mp found
    rw [← same]
    exact (usable entry.1 account before).swept behaviour
  have sameDb : ready.db = state.db := by rw [frame]
  have sameTrie : ready.trie = state.trie := by rw [frame]
  obtain ⟨db, trie, ran, grows, inside, kept, outcome⟩ :=
    foldlM_commitAccount ready.cache.nodupKeys usableReady state.db (.refl _)
      state.trie
  have whole : ready.cacheEntries.foldlM State.commitAccount
      (ready.db, ready.trie) = .ok (db, trie) := by
    rw [sameDb, sameTrie]
    exact ran
  let written := ready.cacheEntries.filter fun entry => entry.2.isDirty
  let last : State :=
    { ready with
      db
      trie
      touched := ready.touched ++ written.map Prod.fst
      changeLog := []
      cache := ∅
      unchangedCacheEntries := [] }
  refine ⟨last, ?_, ?_⟩
  · rw [began]
    simp only [State.writeCache, EStateM.run_bind, EStateM.run_get, whole,
      State.ofExcept, EStateM.run_pure, EStateM.run_set, last, written]
  · have startNonce : ready.accountStartNonce = state.accountStartNonce := by
      rw [frame]
    have absent : ready.nonExistingAccountsCache =
        state.nonExistingAccountsCache := by rw [frame]
    refine ⟨rfl, rfl, absent, startNonce, grows, inside opened, ?_,
      ?_⟩
    · intro text apart
      apply kept
      intro entry member same
      have found : ready.cache.lookup entry.1 = some entry.2 :=
        AList.mem_lookup_iff.mpr member
      rw [lookup] at found
      obtain ⟨account, before, _⟩ := Option.map_eq_some_iff.mp found
      exact apart entry.1 (by simp [before]) same
    · intro injective addr account found
      have after : ready.cache.lookup addr =
          some (swept behaviour account) := by
        rw [lookup, found]
        rfl
      exact outcome db (.refl db) injective ⟨addr, swept behaviour account⟩
        (AList.mem_lookup_iff.mp after)

theorem run_commit {state : State} (coherent : Coherent state)
    (behaviour : CommitBehaviour) :
    ∃ state', (State.commit behaviour).run state = .ok () state' ∧
      Committed behaviour state state' :=
  run_commit_of_usable coherent.opened coherent.usable behaviour

end Aecmio
