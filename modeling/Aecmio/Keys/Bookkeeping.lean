import Aecmio.Keys.KeyManager

/-!
# The bookkeeping of the key manager

The tables of addresses and of keys are inverse to each other, agree with the
addresses that the store knows, and are found again when the keys file is
loaded, as long as nobody binds a second key to an address or a second
address to a key.
-/

namespace Aecmio

open KeyCrypto
open Inverses (Inverse Fits lookup_insert_eq lookup_erase_eq)

namespace KeyManager

variable {manager after : KeyManager} {visits : Visits}
  {uuid : H128} {address : Address}

/-- Only passwords and hints differ. -/
structure SameBooks (manager after : KeyManager) : Prop where
  uuidLookup : after.uuidLookup = manager.uuidLookup
  addrLookup : after.addrLookup = manager.addrLookup
  keyInfo : after.keyInfo = manager.keyInfo
  keysFileKey : after.keysFileKey = manager.keysFileKey
  store : after.store = manager.store
  salt : after.salt = manager.salt
  keysFile : after.keysFile = manager.keysFile

theorem SameBooks.refl (manager : KeyManager) : SameBooks manager manager :=
  ⟨rfl, rfl, rfl, rfl, rfl, rfl, rfl⟩

theorem SameBooks.trans {middle : KeyManager}
    (one : SameBooks manager middle) (two : SameBooks middle after) :
    SameBooks manager after :=
  ⟨two.uuidLookup.trans one.uuidLookup, two.addrLookup.trans one.addrLookup,
    two.keyInfo.trans one.keyInfo, two.keysFileKey.trans one.keysFileKey,
    two.store.trans one.store, two.salt.trans one.salt,
    two.keysFile.trans one.keysFile⟩

/-- The tables of a manager, with what its store knows. -/
structure Tables (manager : KeyManager) : Prop where
  tidy : manager.store.Tidy
  inverse : Inverse zeroAddress manager.addrLookup manager.uuidLookup
  known : ∀ uuid address, manager.store.addressOf uuid = some address →
    address ≠ zeroAddress → manager.uuidLookup.lookup uuid = some address
  noKey : manager.store.addressOf (zeroHash 16) = none
  noEntry : manager.uuidLookup.lookup (zeroHash 16) = none
  accounts : zeroAddress ∉ manager.keyInfo

/-- The keys file says nothing of the keys of the store but what the tables
say. -/
structure Saved (manager : KeyManager) (content : Keys) : Prop where
  keysFile : manager.keysFile = some ⟨manager.keysFileKey, content⟩
  version : content.version = 1
  nonzero : ∀ entry ∈ content.keyInfo, entry.address ≠ zeroAddress
  agrees : ∀ entry ∈ content.keyInfo, entry.uuid ≠ zeroHash 16 →
    entry.uuid ∈ manager.store.keys →
      manager.addrLookup.lookup entry.address = some entry.uuid

structure Consistent (manager : KeyManager) : Prop where
  tables : Tables manager
  writable : manager.keysFileKey ≠ zeroHash 16
  saved : ∃ content, Saved manager content

theorem lookup_uuid (some_ : manager.uuid address ≠ zeroHash 16) :
    manager.addrLookup.lookup address = some (manager.uuid address) := by
  unfold KeyManager.uuid at some_ ⊢
  cases found : manager.addrLookup.lookup address with
  | none =>
      rw [found] at some_
      exact absurd rfl some_
  | some uuid => rfl

/-- An entry that is written is that of an account. -/
theorem mem_contents {entry : KeysEntry}
    (member : entry ∈ (manager.contents visits).keyInfo) :
    entry.address ∈ manager.keyInfo ∧
      entry.uuid = manager.uuid entry.address := by
  obtain ⟨info, among, rfl⟩ := List.mem_map.mp member
  refine ⟨AList.lookup_isSome.mp (Option.isSome_iff_exists.mpr ⟨info.2, ?_⟩),
    rfl⟩
  exact AList.mem_lookup_iff.mpr (Visits.mem_order.mp among)

theorem Tables.same (tables : Tables manager)
    (same : SameBooks manager after) : Tables after := by
  refine ⟨?_, ?_, ?_, ?_, ?_, ?_⟩
  · rw [same.store]
    exact tables.tidy
  · rw [same.addrLookup, same.uuidLookup]
    exact tables.inverse
  · rw [same.store, same.uuidLookup]
    exact tables.known
  · rw [same.store]
    exact tables.noKey
  · rw [same.uuidLookup]
    exact tables.noEntry
  · rw [same.keyInfo]
    exact tables.accounts

theorem Consistent.same (consistent : Consistent manager)
    (same : SameBooks manager after) : Consistent after := by
  obtain ⟨content, saved⟩ := consistent.saved
  refine ⟨consistent.tables.same same, ?_, content, ?_, saved.version,
    saved.nonzero, ?_⟩
  · rw [same.keysFileKey]
    exact consistent.writable
  · rw [same.keysFile, same.keysFileKey]
    exact saved.keysFile
  · rw [same.store, same.addrLookup]
    exact saved.agrees

/-- The store may change as long as no key comes or goes and an address that
it learns is in the tables. -/
theorem Consistent.learns (consistent : Consistent manager)
    {store : SecretStore} (tidy : store.Tidy)
    (contains : ∀ uuid, store.addressOf uuid = none ↔
      manager.store.addressOf uuid = none)
    (known : ∀ uuid address, store.addressOf uuid = some address →
      address ≠ zeroAddress →
        manager.uuidLookup.lookup uuid = some address) :
    Consistent { manager with store } := by
  obtain ⟨content, saved⟩ := consistent.saved
  have tables := consistent.tables
  refine ⟨⟨tidy, tables.inverse, known, (contains _).mpr tables.noKey,
    tables.noEntry, tables.accounts⟩, consistent.writable, content,
    saved.keysFile, saved.version, saved.nonzero, ?_⟩
  intro entry member nonzero here
  refine saved.agrees entry member nonzero ?_
  by_contra missing
  have gone := (contains _).mpr (SecretStore.addressOf_eq_none.mpr missing)
  exact SecretStore.addressOf_eq_none.mp gone here

/-- A key is bound to an address that fits it, in a store in which only this
key may be new or get this address. -/
theorem Tables.bind (tables : Tables manager) {store : SecretStore}
    (info : KeyInfo) (tidy : store.Tidy) (nonzero : address ≠ zeroAddress)
    (key : uuid ≠ zeroHash 16)
    (fits : Fits zeroAddress manager.addrLookup manager.uuidLookup address
      uuid)
    (addresses : ∀ other found, store.addressOf other = some found →
      found ≠ zeroAddress → other = uuid ∧ found = address ∨
        manager.store.addressOf other = some found)
    (noKey : store.addressOf (zeroHash 16) = none) :
    Tables { manager with
      store
      keyInfo := manager.keyInfo.insert address info
      addrLookup := manager.addrLookup.insert address uuid
      uuidLookup := manager.uuidLookup.insert uuid address } := by
  refine ⟨tidy, tables.inverse.insert fits, ?_, noKey, ?_, ?_⟩
  · intro other found there known
    rw [lookup_insert_eq]
    rcases addresses other found there known with ⟨same, here⟩ | before
    · rw [if_pos same, here]
    · have bound := tables.known other found before known
      split
      · next same =>
          rw [same] at bound
          rw [fits.unbound found known bound]
      · exact bound
  · rw [lookup_insert_eq, if_neg key.symm]
    exact tables.noEntry
  · intro member
    rcases (AList.mem_insert _).mp member with same | old
    · exact nonzero same.symm
    · exact tables.accounts old

/-! ## A new manager on the files -/

/-- What the loop of the constructor makes of a list of keys. -/
structure Noted (manager : KeyManager) (uuids : List H128)
    (after : KeyManager) : Prop where
  store : after.store = manager.store
  keyInfo : after.keyInfo = manager.keyInfo
  salt : after.salt = manager.salt
  keysFile : after.keysFile = manager.keysFile
  uuidLookup : ∀ uuid, after.uuidLookup.lookup uuid =
    if uuid ∈ uuids then some (manager.store.address uuid)
    else manager.uuidLookup.lookup uuid
  addrLookup : ∀ address uuid, after.addrLookup.lookup address = some uuid →
    manager.addrLookup.lookup address = some uuid ∨
      uuid ∈ uuids ∧ manager.store.address uuid = address
  contains : ∀ uuid ∈ uuids, manager.store.address uuid ∈ after.addrLookup
  keeps : ∀ address, address ∈ manager.addrLookup → address ∈ after.addrLookup

theorem foldl_note (uuids : List H128) :
    Noted manager uuids (uuids.foldl note manager) := by
  induction uuids generalizing manager with
  | nil =>
      exact ⟨rfl, rfl, rfl, rfl, fun uuid => by simp, fun _ _ => .inl,
        by simp, fun _ => id⟩
  | cons first uuids induction =>
      have rest := @induction (manager.note first)
      refine ⟨rest.store, rest.keyInfo, rest.salt, rest.keysFile, ?_, ?_, ?_,
        ?_⟩
      · intro uuid
        rw [List.foldl_cons, rest.uuidLookup]
        simp only [note, lookup_insert_eq, List.mem_cons]
        by_cases later : uuid ∈ uuids
        · rw [if_pos later, if_pos (.inr later)]
        · by_cases here : uuid = first
          · rw [if_neg later, if_pos here, if_pos (.inl here), here]
          · rw [if_neg later, if_neg here, if_neg (by simp [here, later])]
      · intro address uuid found
        rcases rest.addrLookup address uuid found with old | ⟨later, same⟩
        · simp only [note, lookup_insert_eq] at old
          split at old
          · next here =>
              cases old
              exact .inr ⟨List.mem_cons_self, here.symm⟩
          · exact .inl old
        · exact .inr ⟨List.mem_cons_of_mem _ later, same⟩
      · intro uuid member
        rcases List.mem_cons.mp member with here | later
        · rw [here]
          exact rest.keeps _ ((AList.mem_insert _).mpr (.inl rfl))
        · exact rest.contains uuid later
      · intro address member
        exact rest.keeps address ((AList.mem_insert _).mpr (.inr member))

/-- What a new manager knows is what the files say. -/
structure Constructed (visits : Visits) (path : Bytes)
    (files : AList fun _ : Bytes => KeyFile) (salt : Bytes)
    (keysFile : Option KeysFile) (manager : KeyManager) : Prop where
  orderly : SecretStore.Orderly files
  tables : Tables manager
  store : manager.store = SecretStore.load visits path files
  keyInfo : manager.keyInfo = ∅
  salt : manager.salt = salt
  keysFile : manager.keysFile = keysFile
  uuidLookup : ∀ uuid, manager.uuidLookup.lookup uuid =
    manager.store.addressOf uuid

theorem constructed {path : Bytes} {files : AList fun _ : Bytes => KeyFile}
    (orderly : SecretStore.Orderly files) (salt : Bytes)
    (keysFile : Option KeysFile) :
    Constructed visits path files salt keysFile
      (construct visits path files salt keysFile) := by
  obtain ⟨tidy, addresses⟩ :=
    @SecretStore.load_tidy visits path files orderly
  have noted := @foldl_note
    { store := SecretStore.load visits path files, salt, keysFile }
    ((SecretStore.load visits path files).keyList visits)
  have listed : ∀ uuid, uuid ∈
      (SecretStore.load visits path files).keyList visits ↔
        (SecretStore.load visits path files).addressOf uuid ≠ none := by
    intro uuid
    rw [SecretStore.keyList, Visits.mem_order, ← AList.mem_keys, ne_eq,
      SecretStore.addressOf_eq_none, not_not]
  have table : ∀ uuid,
      (construct visits path files salt keysFile).uuidLookup.lookup uuid =
        (SecretStore.load visits path files).addressOf uuid := by
    intro uuid
    refine (noted.uuidLookup uuid).trans ?_
    simp only [listed, SecretStore.address]
    cases found : (SecretStore.load visits path files).addressOf uuid with
    | none => simp
    | some address => simp
  have same : (construct visits path files salt keysFile).store =
      SecretStore.load visits path files := noted.store
  have empty : (construct visits path files salt keysFile).keyInfo = ∅ :=
    noted.keyInfo
  have noKey : (SecretStore.load visits path files).addressOf (zeroHash 16) =
      none := by
    by_contra present
    obtain ⟨address, stored⟩ := Option.ne_none_iff_exists'.mp present
    obtain ⟨name, file, there, id, -⟩ := (addresses _ address).mp stored
    exact orderly.nonzero name file there id
  have ofAddress : ∀ uuid address,
      (construct visits path files salt keysFile).addrLookup.lookup address =
        some uuid →
      (SecretStore.load visits path files).addressOf uuid =
        some address := by
    intro uuid address found
    rcases noted.addrLookup address uuid found with none | ⟨member, stored⟩
    · cases none
    · obtain ⟨other, there⟩ :=
        Option.ne_none_iff_exists'.mp ((listed uuid).mp member)
      rw [there, ← stored, SecretStore.address, there]
      rfl
  have owner : ∀ uuid other address, address ≠ zeroAddress →
      (SecretStore.load visits path files).addressOf uuid = some address →
      (SecretStore.load visits path files).addressOf other = some address →
        uuid = other := by
    intro uuid other address known one two
    obtain ⟨name, file, there, id, rfl⟩ := (addresses uuid address).mp one
    obtain ⟨second, found, here, otherId, same⟩ := (addresses other _).mp two
    have names := orderly.addresses _ _ _ _ there here same.symm known
    rw [names, here, Option.some.injEq] at there
    rw [← id, ← otherId, there]
  refine ⟨orderly, ⟨?_, ?_, ?_, ?_, ?_, ?_⟩, same, empty,
    noted.salt, noted.keysFile, ?_⟩
  · rw [same]
    exact tidy
  · intro address uuid known
    rw [table]
    constructor
    · exact ofAddress uuid address
    · intro stored
      have member := (listed uuid).mpr (by simp [stored])
      have present := noted.contains uuid member
      rw [SecretStore.address, stored] at present
      obtain ⟨other, found⟩ :=
        Option.isSome_iff_exists.mp (AList.lookup_isSome.mpr present)
      have stored' := ofAddress other address found
      rw [owner uuid other address known stored stored']
      exact found
  · intro uuid address stored known
    rw [table, ← same]
    exact stored
  · rw [same, noKey]
  · rw [table, noKey]
  · rw [empty]
    exact AList.notMem_empty _
  · intro uuid
    rw [table, same]

/-- A key of a new manager comes from a file. -/
theorem Constructed.file {path : Bytes}
    {files : AList fun _ : Bytes => KeyFile} {salt : Bytes}
    {keysFile : Option KeysFile}
    (made : Constructed visits path files salt keysFile manager)
    (found : manager.uuidLookup.lookup uuid = some address) :
    ∃ name file, files.lookup name = some file ∧ file.id = uuid ∧
      file.address = address := by
  rw [made.uuidLookup, made.store] at found
  exact (SecretStore.load_tidy made.orderly).2 uuid address |>.mp found

/-! ## Loading the keys file -/

/-- Keys and addresses, at most one of each for the other. -/
structure Pairing (pairs : H128 → Address → Prop) : Prop where
  functional : ∀ uuid address other, pairs uuid address → pairs uuid other →
    address = other
  injective : ∀ uuid other address, pairs uuid address → pairs other address →
    uuid = other

/-- The bound pairs of a manager. -/
def Bound (manager : KeyManager) (uuid : H128) (address : Address) : Prop :=
  address ≠ zeroAddress ∧ manager.uuidLookup.lookup uuid = some address

theorem Tables.pairing (tables : Tables manager) :
    Pairing (Bound manager) := by
  refine ⟨?_, ?_⟩
  · intro uuid address other one two
    exact Option.some.inj (one.2.symm.trans two.2)
  · intro uuid other address one two
    exact tables.inverse.injective one.1 one.2 two.2

/-- While the entries of a keys file are loaded, all pairs are among some. -/
structure Loading (pairs : H128 → Address → Prop) (manager : KeyManager) :
    Prop where
  tables : Tables manager
  within : ∀ uuid address, Bound manager uuid address → pairs uuid address

/-- What loading entries does not change. -/
structure Unloaded (manager after : KeyManager) : Prop where
  contains : ∀ uuid, uuid ∈ after.store.keys ↔ uuid ∈ manager.store.keys
  keeps : ∀ address, address ∈ manager.addrLookup → address ∈ after.addrLookup
  keysFileKey : after.keysFileKey = manager.keysFileKey
  salt : after.salt = manager.salt
  keysFile : after.keysFile = manager.keysFile

theorem Unloaded.refl (manager : KeyManager) : Unloaded manager manager :=
  ⟨fun _ => Iff.rfl, fun _ => id, rfl, rfl, rfl⟩

theorem Unloaded.trans {middle : KeyManager}
    (one : Unloaded manager middle) (two : Unloaded middle after) :
    Unloaded manager after :=
  ⟨fun uuid => (two.contains uuid).trans (one.contains uuid),
    fun address member => two.keeps address (one.keeps address member),
    two.keysFileKey.trans one.keysFileKey, two.salt.trans one.salt,
    two.keysFile.trans one.keysFile⟩

variable {pairs : H128 → Address → Prop} {saveRequired : Bool}
  {entry : KeysEntry}

/-- The pairs of an entry, if the store has its key. -/
def Entered (pairs : H128 → Address → Prop) (manager : KeyManager)
    (entry : KeysEntry) : Prop :=
  entry.address ≠ zeroAddress ∧
    (entry.uuid ≠ zeroHash 16 → entry.uuid ∈ manager.store.keys →
      pairs entry.uuid entry.address)

theorem Loading.enter (loading : Loading pairs manager)
    (pairing : Pairing pairs) (entered : Entered pairs manager entry) :
    Loading pairs (loadEntry (saveRequired, manager) entry).2 ∧
      Unloaded manager (loadEntry (saveRequired, manager) entry).2 ∧
      (entry.uuid ≠ zeroHash 16 → entry.uuid ∈ manager.store.keys →
        entry.address ∈
          (loadEntry (saveRequired, manager) entry).2.addrLookup) := by
  obtain ⟨nonzero, paired⟩ := entered
  have tables := loading.tables
  by_cases key : entry.uuid ≠ zeroHash 16
  · by_cases here : entry.uuid ∈ manager.store.keys
    · have pair := paired key here
      have loaded : (loadEntry (saveRequired, manager) entry).2 =
          { manager with
            addrLookup := manager.addrLookup.insert entry.address entry.uuid
            uuidLookup := manager.uuidLookup.insert entry.uuid entry.address
            keyInfo := manager.keyInfo.insert entry.address entry.info
            store := (manager.store.noteAddress entry.uuid
              entry.address).2 } := by
        simp only [loadEntry, if_pos key, SecretStore.contains, here,
          decide_true, if_true]
      rw [loaded]
      refine ⟨⟨?_, ?_⟩, ⟨?_, ?_, rfl, rfl, rfl⟩, ?_⟩
      · refine tables.bind entry.info (tables.tidy.noteAddress entry.address)
          nonzero key ⟨?_, ?_⟩ ?_ ?_
        · intro known other found
          rw [tables.inverse _ _ known] at found
          exact pairing.injective _ _ _
            (loading.within other _ ⟨known, found⟩) pair
        · intro other known found
          exact pairing.functional _ _ _
            (loading.within _ other ⟨known, found⟩) pair
        · intro other found there _
          rw [SecretStore.addressOf_noteAddress] at there
          split at there
          · next same => exact .inl ⟨same.1, (Option.some.inj there).symm⟩
          · exact .inr there
        · rw [SecretStore.addressOf_noteAddress, if_neg, tables.noKey]
          exact fun same => key same.1.symm
      · intro uuid address bound
        have found := bound.2
        rw [lookup_insert_eq] at found
        split at found
        · next same =>
            rw [same, ← Option.some.inj found]
            exact pair
        · exact loading.within uuid address ⟨bound.1, found⟩
      · intro uuid
        exact SecretStore.mem_noteAddress
      · intro address member
        exact (AList.mem_insert _).mpr (.inr member)
      · intro _ _
        exact (AList.mem_insert _).mpr (.inl rfl)
    · have loaded : loadEntry (saveRequired, manager) entry =
          (saveRequired, manager) := by
        simp only [loadEntry, if_pos key, SecretStore.contains, here,
          decide_false, Bool.false_eq_true, if_false]
      rw [loaded]
      exact ⟨loading, .refl manager, fun _ present => absurd present here⟩
  · have loaded : loadEntry (saveRequired, manager) entry =
        (saveRequired, { manager with
          keyInfo := manager.keyInfo.insert entry.address entry.info }) := by
      simp only [loadEntry, if_neg key]
    rw [loaded]
    refine ⟨⟨⟨tables.tidy, tables.inverse, tables.known, tables.noKey,
      tables.noEntry, ?_⟩, loading.within⟩,
      ⟨fun _ => Iff.rfl, fun _ => id, rfl, rfl, rfl⟩,
      fun other => absurd other key⟩
    intro member
    rcases (AList.mem_insert _).mp member with same | old
    · exact nonzero same.symm
    · exact tables.accounts old

/-- All entries are loaded, and those of keys in the store are then in the
table. -/
theorem Loading.enterAll {entries : List KeysEntry}
    (loading : Loading pairs manager) (pairing : Pairing pairs)
    (entered : ∀ entry ∈ entries, Entered pairs manager entry) :
    Loading pairs (entries.foldl loadEntry (saveRequired, manager)).2 ∧
      Unloaded manager (entries.foldl loadEntry (saveRequired, manager)).2 ∧
      ∀ entry ∈ entries, entry.uuid ≠ zeroHash 16 →
        entry.uuid ∈ manager.store.keys →
          entry.address ∈ (entries.foldl loadEntry
            (saveRequired, manager)).2.addrLookup := by
  induction entries generalizing manager saveRequired with
  | nil => exact ⟨loading, .refl manager, by simp⟩
  | cons entry entries induction =>
      obtain ⟨first, unloaded, present⟩ := @Loading.enter manager pairs
        saveRequired entry loading pairing (entered entry List.mem_cons_self)
      rw [List.foldl_cons]
      generalize loadEntry (saveRequired, manager) entry = middle at *
      obtain ⟨required, middle⟩ := middle
      have later : ∀ other ∈ entries, Entered pairs middle other := by
        intro other member
        obtain ⟨nonzero, paired⟩ :=
          entered other (List.mem_cons_of_mem _ member)
        refine ⟨nonzero, fun key here => paired key ?_⟩
        exact (unloaded.contains _).mp here
      obtain ⟨rest, further, others⟩ := @induction middle required first later
      refine ⟨rest, unloaded.trans further, ?_⟩
      intro other member key here
      rcases List.mem_cons.mp member with same | member
      · rw [same] at key here ⊢
        exact further.keeps _ (present key here)
      · exact others other member key ((unloaded.contains _).mpr here)

theorem Loading.save (loading : Loading pairs manager) :
    Loading pairs { manager with store := manager.store.save visits } := by
  have tables := loading.tables
  refine ⟨⟨tables.tidy.save, tables.inverse, ?_, ?_, tables.noEntry,
    tables.accounts⟩, loading.within⟩
  · intro uuid address stored known
    rw [SecretStore.addressOf_save] at stored
    exact tables.known uuid address stored known
  · rw [SecretStore.addressOf_save]
    exact tables.noKey

theorem Loading.same (loading : Loading pairs manager)
    (same : SameBooks manager after) : Loading pairs after := by
  refine ⟨loading.tables.same same, ?_⟩
  intro uuid address bound
  have found := bound.2
  rw [same.uuidLookup] at found
  exact loading.within uuid address ⟨bound.1, found⟩

theorem Unloaded.same (unloaded : Unloaded manager after)
    {last : KeyManager} (same : SameBooks after last) :
    Unloaded manager last := by
  refine unloaded.trans ⟨?_, ?_, same.keysFileKey, same.salt, same.keysFile⟩
  · intro uuid
    rw [same.store]
  · intro address member
    rw [same.addrLookup]
    exact member

/-- The keys file is loaded into the tables. -/
theorem Loading.loadKeys (loading : Loading pairs manager)
    (pairing : Pairing pairs) {content : Keys}
    (entered : ∀ entry ∈ content.keyInfo, Entered pairs manager entry) :
    Loading pairs (manager.loadKeys visits content) ∧
      Unloaded manager (manager.loadKeys visits content) ∧
      ∀ entry ∈ content.keyInfo, entry.uuid ≠ zeroHash 16 →
        entry.uuid ∈ manager.store.keys →
          entry.address ∈ (manager.loadKeys visits content).addrLookup := by
  have all := @Loading.enterAll manager pairs false content.keyInfo loading
    pairing entered
  simp only [KeyManager.loadKeys]
  generalize content.keyInfo.foldl loadEntry (false, manager) = entries at *
  obtain ⟨required, middle⟩ := entries
  obtain ⟨loaded, unloaded, present⟩ := all
  cases required with
  | false =>
      have same : SameBooks middle { middle with
          passwordHints := content.passwordHint.foldl
            (fun hints hint => hints.insert hint.1 hint.2)
            middle.passwordHints
          defaultPasswordDeprecated := content.defaultPassword } :=
        ⟨rfl, rfl, rfl, rfl, rfl, rfl, rfl⟩
      exact ⟨loaded.same same, unloaded.same same, present⟩
  | true =>
      have saved : Unloaded middle { middle with
          store := middle.store.save visits } :=
        ⟨fun _ => SecretStore.mem_save, fun _ => id, rfl, rfl, rfl⟩
      exact ⟨loaded.save.same ⟨rfl, rfl, rfl, rfl, rfl, rfl, rfl⟩,
        (unloaded.trans saved).same ⟨rfl, rfl, rfl, rfl, rfl, rfl, rfl⟩,
        present⟩

/-- The address in a file is bound to its key. -/
theorem Tables.bound_file (tables : Tables manager) {name : Bytes}
    {file : KeyFile} (there : manager.store.files.lookup name = some file)
    (known : file.address ≠ zeroAddress) :
    Bound manager file.id file.address := by
  obtain ⟨key, owner, -, same | unknown⟩ := tables.tidy.owned name file there
  · refine ⟨known, tables.known file.id file.address ?_ known⟩
    rw [SecretStore.addressOf_of_lookup owner, same]
  · exact absurd unknown known

theorem Tables.orderly (tables : Tables manager) :
    SecretStore.Orderly manager.store.files := by
  have ids : ∀ name other file found,
      manager.store.files.lookup name = some file →
      manager.store.files.lookup other = some found →
        file.id = found.id → name = other := by
    intro name other file found there here same
    obtain ⟨key, owner, named, -⟩ := tables.tidy.owned name file there
    obtain ⟨second, found, also, -⟩ := tables.tidy.owned other found here
    rw [same, found] at owner
    cases owner
    exact named.symm.trans also
  refine ⟨tables.tidy.named, ?_, ids, ?_⟩
  · intro name file there zero
    obtain ⟨key, owner, -⟩ := tables.tidy.owned name file there
    have stored := SecretStore.addressOf_of_lookup owner
    rw [zero, tables.noKey] at stored
    cases stored
  · intro name other file found there here same known
    have one := tables.bound_file there known
    rw [same] at known one
    exact ids name other file found there here
      (tables.pairing.injective _ _ _ one (tables.bound_file here known))

/-! ## Addresses that are gone -/

/-- Nothing in memory or in the keys file is left of an address. -/
structure Forgotten (address : Address) (manager : KeyManager) : Prop where
  info : address ∉ manager.keyInfo
  keys : ∀ uuid, manager.store.addressOf uuid ≠ some address
  file : ∀ file, manager.keysFile = some file →
    ∀ entry ∈ file.content.keyInfo, entry.address ≠ address

theorem Forgotten.same (forgotten : Forgotten address manager)
    (same : SameBooks manager after) : Forgotten address after := by
  refine ⟨?_, ?_, ?_⟩
  · rw [same.keyInfo]
    exact forgotten.info
  · rw [same.store]
    exact forgotten.keys
  · rw [same.keysFile]
    exact forgotten.file

theorem Forgotten.hasAccount (forgotten : Forgotten address manager) :
    manager.hasAccount address = false := by
  refine decide_eq_false ?_
  rintro ⟨known, info | ⟨uuid, -, same⟩⟩
  · exact forgotten.info info
  · cases found : manager.store.addressOf uuid with
    | none =>
        rw [SecretStore.address, found] at same
        exact known same.symm
    | some other =>
        rw [SecretStore.address, found] at same
        refine forgotten.keys uuid ?_
        rw [found, ← same]
        rfl

theorem Forgotten.not_mem_accounts (forgotten : Forgotten address manager) :
    address ∉ manager.accounts := by
  intro member
  have account := forgotten.hasAccount
  rw [KeyManager.hasAccount, decide_eq_false_iff_not] at account
  rw [accounts, Finset.mem_erase, Finset.mem_union, List.mem_toFinset,
    List.mem_toFinset, List.mem_map] at member
  exact account member

theorem Forgotten.enter (forgotten : Forgotten address manager)
    (other : entry.address ≠ address) :
    Forgotten address (loadEntry (saveRequired, manager) entry).2 := by
  have info : address ∉ manager.keyInfo.insert entry.address entry.info := by
    intro member
    rcases (AList.mem_insert _).mp member with same | old
    · exact other same.symm
    · exact forgotten.info old
  simp only [loadEntry]
  split
  · split
    · refine ⟨info, ?_, forgotten.file⟩
      intro uuid
      rw [SecretStore.addressOf_noteAddress]
      split
      · exact fun same => other (Option.some.inj same)
      · exact forgotten.keys uuid
    · exact forgotten
  · exact ⟨info, forgotten.keys, forgotten.file⟩

theorem Forgotten.loadKeys (forgotten : Forgotten address manager)
    {content : Keys}
    (others : ∀ entry ∈ content.keyInfo, entry.address ≠ address) :
    Forgotten address (manager.loadKeys visits content) := by
  have all : ∀ (entries : List KeysEntry) (loading : Bool × KeyManager),
      Forgotten address loading.2 →
      (∀ entry ∈ entries, entry.address ≠ address) →
        Forgotten address (entries.foldl loadEntry loading).2 := by
    intro entries
    induction entries with
    | nil => exact fun _ gone _ => gone
    | cons entry entries induction =>
        intro loading gone others
        refine induction _ (gone.enter (others entry List.mem_cons_self)) ?_
        exact fun other member => others other (List.mem_cons_of_mem _ member)
  have entered := all content.keyInfo (false, manager) forgotten others
  simp only [KeyManager.loadKeys]
  generalize content.keyInfo.foldl loadEntry (false, manager) = entries at *
  obtain ⟨required, middle⟩ := entries
  cases required with
  | false => exact ⟨entered.info, entered.keys, entered.file⟩
  | true =>
      refine ⟨entered.info, ?_, entered.file⟩
      intro uuid
      exact fun same => entered.keys uuid
        ((SecretStore.addressOf_save).symm.trans same)

section

variable [KeyCrypto]

/-! ## Passwords and the keys file -/

theorem cachePassword_same (password : Bytes) :
    SameBooks manager (manager.cachePassword password) :=
  ⟨rfl, rfl, rfl, rfl, rfl, rfl, rfl⟩

theorem noteHint_same (pass hint : Bytes) :
    SameBooks manager (manager.noteHint pass hint) := by
  unfold noteHint
  split <;> exact ⟨rfl, rfl, rfl, rfl, rfl, rfl, rfl⟩

theorem askPassword_same (passHash : H256) (pass : Nat → Option Bytes)
    (tries : Nat) :
    SameBooks manager (manager.askPassword passHash pass tries).2 := by
  induction tries with
  | zero => exact .refl manager
  | succ tries induction =>
      unfold askPassword
      split
      · exact .refl manager
      split
      · exact .refl manager
      split
      · exact cachePassword_same _
      · exact induction

theorem getPassword_same (passHash : H256) (pass : Nat → Option Bytes) :
    SameBooks manager (manager.getPassword passHash pass).2 := by
  unfold getPassword
  split
  · exact .refl manager
  · exact askPassword_same passHash pass 10

/-- The file is written even if an exception follows. -/
theorem writeWith_same (key : H128) :
    SameBooks { manager with
        keysFile := some ⟨key, manager.contents visits⟩, keysFileKey := key }
      (manager.writeWith visits key).2 := by
  have asked := @getPassword_same { manager with
    keysFile := some ⟨key, manager.contents visits⟩, keysFileKey := key } _
    manager.master fun _ => none
  simp only [writeWith]
  split
  · next got =>
      rw [got] at asked
      exact asked
  · next got =>
      rw [got] at asked
      exact asked.trans (cachePassword_same _)

theorem write_same (writable : manager.keysFileKey ≠ zeroHash 16) :
    SameBooks { manager with
        keysFile := some ⟨manager.keysFileKey, manager.contents visits⟩ }
      (manager.write visits).2 := by
  rw [KeyManager.write, if_neg writable]
  exact writeWith_same _

/-- After a write the keys file agrees with the tables. -/
theorem Tables.writeWith (tables : Tables manager) {key : H128}
    (writable : key ≠ zeroHash 16) :
    Consistent (manager.writeWith visits key).2 := by
  have consistent : Consistent { manager with
      keysFile := some ⟨key, manager.contents visits⟩
      keysFileKey := key } := by
    refine ⟨⟨tables.tidy, tables.inverse, tables.known, tables.noKey,
      tables.noEntry, tables.accounts⟩, writable, _, rfl, rfl, ?_, ?_⟩
    · intro entry member zero
      have kept := (mem_contents member).1
      rw [zero] at kept
      exact tables.accounts kept
    · intro entry member nonzero _
      have same := (mem_contents member).2
      rw [same] at nonzero ⊢
      exact lookup_uuid nonzero
  exact consistent.same (writeWith_same key)

theorem Tables.write (tables : Tables manager)
    (writable : manager.keysFileKey ≠ zeroHash 16) :
    Consistent (manager.write visits).2 := by
  rw [KeyManager.write, if_neg writable]
  exact tables.writeWith writable

/-! ## The operations -/

/-- A key and an address that nothing speaks against binding. -/
structure Binds (manager : KeyManager) (uuid : H128) (address : Address) :
    Prop where
  key : uuid ≠ zeroHash 16
  nonzero : address ≠ zeroAddress
  fits : Fits zeroAddress manager.addrLookup manager.uuidLookup address uuid

theorem Consistent.import_ (consistent : Consistent manager) {secret : Secret}
    {accountName pass passwordHint : Bytes} {random : H128}
    (binds : Binds manager random (keyPairAddress secret))
    (new : random ∉ manager.store.keys) :
    Consistent (manager.import_ visits secret accountName pass passwordHint
      random).2 := by
  have tables := consistent.tables
  have noted : SameBooks manager { manager.cachePassword pass with
      passwordHints := manager.passwordHints.insert
        (manager.hashPassword pass) passwordHint } :=
    ⟨rfl, rfl, rfl, rfl, rfl, rfl, rfl⟩
  simp only [KeyManager.import_]
  split
  · exact consistent.same noted
  next store imported =>
  obtain ⟨tidy, addresses⟩ := SecretStore.importSecret_some tables.tidy
    (SecretStore.addressOf_eq_none.mpr new) imported
  rw [FixedHash.ofBytes_val] at addresses
  refine Tables.write ?_ consistent.writable
  refine (tables.same noted).bind _ tidy binds.nonzero binds.key binds.fits
    ?_ ?_
  · intro other found there _
    rw [addresses] at there
    split at there
    · next same => exact .inl ⟨same, (Option.some.inj there).symm⟩
    · exact .inr there
  · rw [addresses, if_neg binds.key.symm]
    exact tables.noKey

theorem Tables.importExistingAt (tables : Tables manager)
    (writable : manager.keysFileKey ≠ zeroHash 16) {store : SecretStore}
    (same : SameBooks { manager with store } after)
    {accountName passwordHint : Bytes} {passHash : H256}
    (binds : Binds manager uuid address) (tidy : store.Tidy)
    (addresses : ∀ other found, store.addressOf other = some found →
      found ≠ zeroAddress → other = uuid ∧ found = address ∨
        manager.store.addressOf other = some found)
    (noKey : store.addressOf (zeroHash 16) = none) :
    Consistent (after.importExistingAt visits uuid accountName address
      passHash passwordHint).2 := by
  have bound := tables.bind
    { (after.keyInfo.lookup address).getD ⟨zeroHash 32, [], []⟩ with
      passHash, accountName }
    tidy binds.nonzero binds.key binds.fits addresses noKey
  refine Tables.write (bound.same ?_) ?_
  · exact ⟨congrArg (AList.insert uuid address) same.uuidLookup,
      congrArg (AList.insert address uuid) same.addrLookup,
      congrArg (AList.insert address _) same.keyInfo,
      same.keysFileKey, same.store, same.salt, same.keysFile⟩
  · intro zero
    exact writable (same.keysFileKey.symm.trans zero)

theorem keyPairAddress_eq {secret : Secret}
    (valid : keyPairAddress secret ≠ zeroAddress) :
    keyPairAddress secret = toAddress (toPublic secret) := by
  unfold keyPairAddress at valid ⊢
  split
  · next invalid =>
      rw [if_pos invalid] at valid
      exact absurd rfl valid
  · rfl

theorem Consistent.importExisting (consistent : Consistent manager)
    {info pass passwordHint : Bytes}
    (binds : ∀ key store, manager.store.secret uuid (some pass) =
      some (key, store) → key ≠ [] →
        Binds manager uuid (keyPairAddress (FixedHash.ofBytes 32 key))) :
    Consistent (manager.importExisting visits uuid info pass
      passwordHint).2 := by
  have tables := consistent.tables
  simp only [KeyManager.importExisting]
  split
  · exact consistent
  · next store read =>
      rcases SecretStore.secret_cases tables.tidy read with same | ⟨some_, -⟩
      · rw [same]
        exact consistent
      · exact absurd rfl some_
  next key store nonempty read =>
  have bound := binds key store read nonempty
  have kept : SameBooks { manager with store }
      (if manager.hashPassword pass ∈ manager.cachedPasswords then
        { manager with store }
      else cachePassword { manager with store } pass) := by
    split
    · exact .refl _
    · exact cachePassword_same pass
  rcases SecretStore.secret_cases tables.tidy read with
      same | ⟨-, tidy, -, learns⟩
  · refine tables.importExistingAt consistent.writable kept bound ?_ ?_ ?_
    · rw [same]
      exact tables.tidy
    · rw [same]
      exact fun other found there _ => .inr there
    · rw [same]
      exact tables.noKey
  · refine tables.importExistingAt consistent.writable kept bound tidy ?_
      (learns.missing_iff.mpr tables.noKey)
    intro other found there _
    rw [learns] at there
    split at there
    · next here =>
        refine .inl ⟨here.1, ?_⟩
        rw [keyPairAddress_eq bound.nonzero]
        exact (Option.some.inj there).symm
    · exact .inr there

/-- A key is encrypted anew, and its address is no news to the tables. -/
theorem Consistent.recode (consistent : Consistent manager)
    {newPass hint : Bytes} {pass : Nat → Option Bytes} {kdf : KDF}
    (zero : address = zeroAddress →
      manager.addrLookup.lookup zeroAddress = none)
    (real : ∀ uuid, manager.addrLookup.lookup address = some uuid →
      manager.store.addressOf uuid = some zeroAddress →
        ∀ password opened, manager.store.opened uuid password = some opened →
          opened = address) :
    Consistent (manager.recode visits address newPass hint pass kdf).2 := by
  simp only [KeyManager.recode]
  have noted := manager.noteHint_same newPass hint
  have named : (manager.noteHint newPass hint).uuid address =
      manager.uuid address := by
    rw [KeyManager.uuid, noted.addrLookup]
    rfl
  rw [named]
  generalize manager.noteHint newPass hint = hinted at noted
  generalize answered : (if hinted.store.asks (manager.uuid address) then
    hinted.getPasswordOf (manager.uuid address) pass
    else (none, hinted)) = answer
  have same : SameBooks manager answer.2 := by
    rw [← answered]
    split
    · exact noted.trans (getPassword_same _ pass)
    · exact noted
  obtain ⟨password, middle⟩ := answer
  have kept := consistent.same same
  have tables := kept.tables
  generalize recoded : middle.store.recode visits (manager.uuid address)
    newPass password kdf = result
  obtain ⟨result, store⟩ := result
  obtain ⟨tidy, addresses⟩ := SecretStore.recode_cases tables.tidy recoded
  have learnt : Consistent { middle with store } := by
    rcases addresses with unchanged | ⟨opened, opens, learns⟩
    · refine kept.learns tidy (fun uuid => by rw [unchanged]) ?_
      intro uuid found there known
      rw [unchanged] at there
      exact tables.known uuid found there known
    · refine kept.learns tidy (fun uuid => learns.missing_iff) ?_
      intro uuid found there known
      rw [learns] at there
      split at there
      · next here =>
          rw [here.1]
          have bound : manager.addrLookup.lookup address =
              some (manager.uuid address) := by
            refine lookup_uuid fun none => ?_
            rw [none, tables.noKey] at here
            cases here.2
          rw [same.store] at here opens
          have agrees := real _ bound here.2 password opened opens
          rw [← Option.some.inj there, agrees] at known ⊢
          rw [same.uuidLookup]
          exact (consistent.tables.inverse _ _ known).mp bound
      · exact tables.known uuid found there known
  cases result with
  | none => exact learnt
  | some done =>
      cases done with
      | false => exact learnt
      | true =>
          refine Tables.write ?_ learnt.writable
          have books := learnt.tables
          refine ⟨books.tidy, books.inverse, books.known, books.noKey,
            books.noEntry, ?_⟩
          intro member
          rcases (AList.mem_insert _).mp member with same | old
          · have none_ : manager.uuid address = zeroHash 16 := by
              rw [KeyManager.uuid, ← same, zero same.symm]
              rfl
            rw [none_, SecretStore.recode_missing tables.tidy tables.noKey]
              at recoded
            cases recoded
          · exact books.accounts old

theorem Consistent.kill (consistent : Consistent manager)
    (free : address = zeroAddress → ∀ known, known ≠ zeroAddress →
      manager.uuidLookup.lookup (manager.uuid address) ≠ some known) :
    Consistent (manager.kill visits address).2 := by
  have tables := consistent.tables
  refine Tables.write ?_ consistent.writable
  have fits : Fits zeroAddress manager.addrLookup manager.uuidLookup address
      (manager.uuid address) := by
    by_cases zero : address = zeroAddress
    · refine ⟨fun known => absurd zero known, fun other known there => ?_⟩
      exact absurd there (free zero other known)
    by_cases none_ : manager.uuid address = zeroHash 16
    · refine ⟨fun _ other there => ?_, fun other _ there => ?_⟩
      · rw [KeyManager.uuid, there]
        rfl
      · rw [none_, tables.noEntry] at there
        cases there
    · exact tables.inverse.fits (lookup_uuid none_) zero
  refine ⟨tables.tidy.kill _, tables.inverse.erase fits, ?_, ?_, ?_, ?_⟩
  · intro other found there known
    rw [SecretStore.addressOf_kill] at there
    split at there
    · cases there
    · next different =>
        rw [lookup_erase_eq, if_neg different]
        exact tables.known other found there known
  · rw [SecretStore.addressOf_kill, tables.noKey, ite_self]
  · rw [lookup_erase_eq, tables.noEntry, ite_self]
  · intro member
    exact tables.accounts (AList.mem_erase.mp member).2

/-! ## Reopening -/

theorem load_same {pass : Bytes} {content : Keys} {garbled : Option Keys}
    (keysFile : manager.keysFile =
      some ⟨fileKey pass manager.salt, content⟩)
    (version : content.version = 1) :
    SameBooks (loadKeys visits content
        { manager with keysFileKey := fileKey pass manager.salt })
      (manager.load visits pass garbled).2 := by
  simp only [load, keysFile, if_pos, version]
  exact ⟨rfl, rfl, rfl, rfl, rfl, rfl, rfl⟩

/-- A new manager loads what this one has saved. -/
theorem Consistent.reopened (consistent : Consistent manager) {pass : Bytes}
    {garbled : Option Keys}
    (right : fileKey pass manager.salt = manager.keysFileKey) :
    Consistent (manager.reopen visits pass garbled).2 ∧
      (manager.reopen visits pass garbled).2.salt = manager.salt ∧
      (manager.reopen visits pass garbled).2.keysFileKey =
        manager.keysFileKey := by
  have tables := consistent.tables
  obtain ⟨content, saved⟩ := consistent.saved
  have fresh := @constructed visits manager.store.path manager.store.files
    tables.orderly manager.salt manager.keysFile
  unfold reopen
  generalize construct visits manager.store.path manager.store.files
    manager.salt manager.keysFile = fresh_ at fresh ⊢
  have keysFile : fresh_.keysFile =
      some ⟨fileKey pass fresh_.salt, content⟩ := by
    rw [fresh.keysFile, fresh.salt, right]
    exact saved.keysFile
  have loading : Loading (Bound manager)
      { fresh_ with keysFileKey := fileKey pass fresh_.salt } := by
    have new := fresh.tables
    refine ⟨⟨new.tidy, new.inverse, new.known, new.noKey, new.noEntry,
      new.accounts⟩, ?_⟩
    rintro uuid address ⟨known, found⟩
    obtain ⟨name, file, there, rfl, rfl⟩ := fresh.file found
    exact tables.bound_file there known
  have entered : ∀ entry ∈ content.keyInfo, Entered (Bound manager)
      { fresh_ with keysFileKey := fileKey pass fresh_.salt } entry := by
    intro entry member
    have known := saved.nonzero entry member
    refine ⟨known, fun nonzero here => ⟨known, ?_⟩⟩
    have loaded : fresh_.uuidLookup.lookup entry.uuid ≠ none := by
      rw [fresh.uuidLookup, ne_eq, SecretStore.addressOf_eq_none, not_not]
      exact here
    obtain ⟨address, found⟩ := Option.ne_none_iff_exists'.mp loaded
    obtain ⟨name, file, there, id, -⟩ := fresh.file found
    obtain ⟨key, owner, -⟩ := tables.tidy.owned name file there
    have stored : entry.uuid ∈ manager.store.keys := by
      rw [← id]
      exact AList.lookup_isSome.mp (by rw [owner]; rfl)
    rw [← tables.inverse _ _ known]
    exact saved.agrees entry member nonzero stored
  obtain ⟨loaded, unloaded, present⟩ :=
    @Loading.loadKeys _ visits _ loading tables.pairing content entered
  have same := @load_same _ visits _ pass content garbled keysFile
    saved.version
  have key : fileKey pass fresh_.salt = manager.keysFileKey := by
    rw [fresh.salt, right]
  refine ⟨Consistent.same ⟨loaded.tables, ?_, content, ?_, saved.version,
    saved.nonzero, ?_⟩ same, ?_, ?_⟩
  · rw [unloaded.keysFileKey, key]
    exact consistent.writable
  · rw [unloaded.keysFile, unloaded.keysFileKey]
    exact keysFile
  · intro entry member nonzero here
    rw [unloaded.contains] at here
    obtain ⟨known, paired⟩ := entered entry member
    obtain ⟨uuid, found⟩ := Option.isSome_iff_exists.mp
      (AList.lookup_isSome.mpr (present entry member nonzero here))
    rw [found, Option.some.injEq]
    exact tables.pairing.injective _ _ _
      (loaded.within _ _ ⟨known, (loaded.tables.inverse _ _ known).mp found⟩)
      (paired nonzero here)
  · rw [same.salt, unloaded.salt]
    exact fresh.salt
  · rw [same.keysFileKey, unloaded.keysFileKey]
    exact key

theorem Consistent.forgets (consistent : Consistent manager)
    (known : address ≠ zeroAddress) :
    Forgotten address (manager.kill visits address).2 := by
  have tables := consistent.tables
  have info : address ∉ manager.keyInfo.erase address :=
    fun member => (AList.mem_erase.mp member).1 rfl
  refine Forgotten.same ⟨info, ?_, ?_⟩ (write_same consistent.writable)
  · intro uuid
    rw [SecretStore.addressOf_kill]
    split
    · simp
    · next other =>
        intro stored
        have bound := tables.known uuid address stored known
        rw [← tables.inverse _ _ known] at bound
        refine other ?_
        rw [KeyManager.uuid, bound]
        rfl
  · intro file written entry member same
    cases written
    have kept := (mem_contents member).1
    rw [same] at kept
    exact info kept

theorem kill_files (consistent : Consistent manager) :
    (manager.kill visits address).2.salt = manager.salt ∧
      (manager.kill visits address).2.keysFileKey = manager.keysFileKey := by
  have same := @write_same { manager with
    uuidLookup := manager.uuidLookup.erase (manager.uuid address)
    addrLookup := manager.addrLookup.erase address
    keyInfo := manager.keyInfo.erase address
    store := manager.store.kill (manager.uuid address) } visits _
    consistent.writable
  exact ⟨same.salt, same.keysFileKey⟩

/-- What is forgotten does not come back from the files. -/
theorem Forgotten.reopened (forgotten : Forgotten address manager)
    (consistent : Consistent manager) (known : address ≠ zeroAddress)
    {pass : Bytes} {garbled : Option Keys}
    (right : fileKey pass manager.salt = manager.keysFileKey) :
    Forgotten address (manager.reopen visits pass garbled).2 := by
  have tables := consistent.tables
  obtain ⟨content, saved⟩ := consistent.saved
  have fresh := @constructed visits manager.store.path manager.store.files
    tables.orderly manager.salt manager.keysFile
  unfold reopen
  generalize construct visits manager.store.path manager.store.files
    manager.salt manager.keysFile = fresh_ at fresh ⊢
  have keysFile : fresh_.keysFile =
      some ⟨fileKey pass fresh_.salt, content⟩ := by
    rw [fresh.keysFile, fresh.salt, right]
    exact saved.keysFile
  refine Forgotten.same (Forgotten.loadKeys ⟨?_, ?_, ?_⟩ ?_)
    (load_same keysFile saved.version)
  · rw [fresh.keyInfo]
    exact AList.notMem_empty _
  · intro uuid stored
    rw [← fresh.uuidLookup] at stored
    obtain ⟨name, file, there, -, rfl⟩ := fresh.file stored
    obtain ⟨key, owner, -, same | unknown⟩ :=
      tables.tidy.owned name file there
    · refine forgotten.keys file.id ?_
      rw [SecretStore.addressOf_of_lookup owner, same]
    · exact known unknown
  · intro file found
    rw [fresh.keysFile] at found
    exact forgotten.file file found
  · exact forgotten.file _ saved.keysFile

/-! ## Sequences of operations -/

inductive KeyStep where
  | import_ (secret : Secret) (accountName pass passwordHint : Bytes)
      (random : H128)
  | importExisting (uuid : H128) (info pass passwordHint : Bytes)
  | importExistingAt (uuid : H128) (accountName : Bytes) (address : Address)
      (passHash : H256) (passwordHint : Bytes)
  | recode (address : Address) (newPass hint : Bytes)
      (pass : Nat → Option Bytes) (kdf : KDF)
  | kill (address : Address)
  | reopen (pass : Bytes) (garbled : Option Keys)

/-- The manager after a step, also if an exception ended it. -/
def step (visits : Visits) (manager : KeyManager) : KeyStep → KeyManager
  | .import_ secret accountName pass passwordHint random =>
      (manager.import_ visits secret accountName pass passwordHint random).2
  | .importExisting uuid info pass passwordHint =>
      (manager.importExisting visits uuid info pass passwordHint).2
  | .importExistingAt uuid accountName address passHash passwordHint =>
      (manager.importExistingAt visits uuid accountName address passHash
        passwordHint).2
  | .recode address newPass hint pass kdf =>
      (manager.recode visits address newPass hint pass kdf).2
  | .kill address => (manager.kill visits address).2
  | .reopen pass garbled => (manager.reopen visits pass garbled).2

def run (manager : KeyManager) : List (Visits × KeyStep) → KeyManager
  | [] => manager
  | (visits, action) :: rest => (manager.step visits action).run rest

/-- A manager on the files of a store, with a new keys file. -/
def opened (visits : Visits) (path : Bytes)
    (files : AList fun _ : Bytes => KeyFile) (pass : Bytes)
    (random salt : H256) : KeyManager :=
  ((construct visits path files [] none).create visits pass random salt).2

/-- No step gives an address a second key or a key a second address. -/
def Careful (manager : KeyManager) : KeyStep → Prop
  | .import_ secret _ _ _ random =>
      Binds manager random (keyPairAddress secret) ∧
        random ∉ manager.store.keys
  | .importExisting uuid _ pass _ =>
      ∀ key store, manager.store.secret uuid (some pass) = some (key, store) →
        key ≠ [] →
          Binds manager uuid (keyPairAddress (FixedHash.ofBytes 32 key))
  | .importExistingAt uuid _ address _ _ => Binds manager uuid address
  | .recode address _ _ _ _ =>
      (address = zeroAddress →
        manager.addrLookup.lookup zeroAddress = none) ∧
      ∀ uuid, manager.addrLookup.lookup address = some uuid →
        manager.store.addressOf uuid = some zeroAddress →
          ∀ password real, manager.store.opened uuid password = some real →
            real = address
  | .kill address =>
      address = zeroAddress → ∀ known, known ≠ zeroAddress →
        manager.uuidLookup.lookup (manager.uuid address) ≠ some known
  | .reopen pass _ => fileKey pass manager.salt = manager.keysFileKey

/-- Every step of the sequence is careful where it comes. -/
def AllCareful (manager : KeyManager) : List (Visits × KeyStep) → Prop
  | [] => True
  | (visits, action) :: rest =>
      Careful manager action ∧ AllCareful (manager.step visits action) rest

theorem Consistent.step (consistent : Consistent manager) {action : KeyStep}
    (careful : Careful manager action) :
    Consistent (manager.step visits action) := by
  cases action with
  | import_ secret accountName pass passwordHint random =>
      exact consistent.import_ careful.1 careful.2
  | importExisting uuid info pass passwordHint =>
      exact consistent.importExisting careful
  | importExistingAt uuid accountName address passHash passwordHint =>
      exact consistent.tables.importExistingAt consistent.writable (.refl _)
        careful consistent.tables.tidy (fun _ _ there _ => .inr there)
        consistent.tables.noKey
  | recode address newPass hint pass kdf =>
      exact consistent.recode careful.1 careful.2
  | kill address => exact consistent.kill careful
  | reopen pass garbled => exact (consistent.reopened careful).1

theorem Consistent.run (consistent : Consistent manager)
    {steps : List (Visits × KeyStep)} (careful : AllCareful manager steps) :
    Consistent (manager.run steps) := by
  induction steps generalizing manager with
  | nil => exact consistent
  | cons first rest induction =>
      exact induction (consistent.step careful.1) careful.2

theorem opened_consistent {path : Bytes}
    {files : AList fun _ : Bytes => KeyFile}
    (orderly : SecretStore.Orderly files) {pass : Bytes} {random salt : H256}
    (nonzero : fileKey pass salt.val ≠ zeroHash 16) :
    Consistent (opened visits path files pass random salt) := by
  have tables := (@constructed visits path files orderly [] none).tables
  refine Tables.writeWith ?_ nonzero
  exact ⟨tables.tidy, tables.inverse, tables.known, tables.noKey,
    tables.noEntry, tables.accounts⟩

/-! ## What is promised of the books -/

/-- One new manager after the other on the same files. -/
def reopenAll (manager : KeyManager) :
    List (Visits × Bytes × Option Keys) → KeyManager
  | [] => manager
  | (visits, pass, garbled) :: rest =>
      (manager.reopen visits pass garbled).2.reopenAll rest

structure BookKept (manager : KeyManager) : Prop where
  /-- For a key whose address the manager or the store knows. -/
  uuid_address : ∀ uuid ∈ manager.store.keys,
    manager.address uuid ≠ zeroAddress ∨
      manager.store.address uuid ≠ zeroAddress →
    manager.uuid (manager.address uuid) = uuid
  address_uuid : ∀ address, address ≠ zeroAddress →
    manager.uuid address ≠ zeroHash 16 →
      manager.address (manager.uuid address) = address
  killed : ∀ visits address reopenings,
    (∀ reopening ∈ reopenings,
      fileKey reopening.2.1 manager.salt = manager.keysFileKey) →
    ((manager.kill visits address).2.reopenAll reopenings).hasAccount
        address = false ∧
      address ∉
        ((manager.kill visits address).2.reopenAll reopenings).accounts

theorem Forgotten.reopenAll (forgotten : Forgotten address manager)
    (consistent : Consistent manager) (known : address ≠ zeroAddress)
    {reopenings : List (Visits × Bytes × Option Keys)}
    (right : ∀ reopening ∈ reopenings,
      fileKey reopening.2.1 manager.salt = manager.keysFileKey) :
    Forgotten address (manager.reopenAll reopenings) := by
  induction reopenings generalizing manager with
  | nil => exact forgotten
  | cons reopening rest induction =>
      obtain ⟨visits, pass, garbled⟩ := reopening
      have here := right _ List.mem_cons_self
      obtain ⟨kept, salt, key⟩ :=
        @Consistent.reopened manager visits _ consistent pass garbled here
      refine induction (forgotten.reopened consistent known here) kept ?_
      intro other member
      rw [salt, key]
      exact right other (List.mem_cons_of_mem _ member)

theorem Consistent.bookKept (consistent : Consistent manager) :
    BookKept manager := by
  have tables := consistent.tables
  refine ⟨?_, ?_, ?_⟩
  · intro uuid _ known
    have bound : ∃ address, Bound manager uuid address := by
      rcases known with known | known
      · cases found : manager.uuidLookup.lookup uuid with
        | none =>
            rw [KeyManager.address, found] at known
            exact absurd rfl known
        | some address =>
            rw [KeyManager.address, found] at known
            exact ⟨address, known, found⟩
      · cases stored : manager.store.addressOf uuid with
        | none =>
            rw [SecretStore.address, stored] at known
            exact absurd rfl known
        | some address =>
            rw [SecretStore.address, stored] at known
            exact ⟨address, known, tables.known uuid address stored known⟩
    obtain ⟨address, known, found⟩ := bound
    rw [KeyManager.address, found, Option.getD_some, KeyManager.uuid,
      (tables.inverse _ _ known).mpr found]
    rfl
  · intro address known some_
    rw [KeyManager.address,
      (tables.inverse _ _ known).mp (lookup_uuid some_)]
    rfl
  · intro visits address reopenings right
    by_cases zero : address = zeroAddress
    · rw [zero]
      exact ⟨by simp [hasAccount], by simp [accounts]⟩
    · have killed := @Consistent.kill manager visits address _ consistent
        fun none => absurd none zero
      have gone := @Consistent.forgets manager visits address _ consistent
        zero
      obtain ⟨salt, key⟩ := @kill_files manager visits address _ consistent
      rw [← salt, ← key] at right
      have still := gone.reopenAll killed zero right
      exact ⟨still.hasAccount, still.not_mem_accounts⟩

/-- As long as every step is careful, the books are kept. -/
theorem run_bookKept (visits : Visits) (path : Bytes)
    (files : AList fun _ : Bytes => KeyFile) (pass : Bytes)
    (random salt : H256) (steps : List (Visits × KeyStep))
    (orderly : SecretStore.Orderly files)
    (nonzero : fileKey pass salt.val ≠ zeroHash 16)
    (careful : AllCareful (opened visits path files pass random salt) steps) :
    BookKept ((opened visits path files pass random salt).run steps) :=
  ((opened_consistent orderly nonzero).run careful).bookKept

end

/-! ## Two keys of one secret -/

/-- The order that a map has. -/
def plainVisits : Visits where
  order := id
  perm list := .refl list

/-- Public keys that tell secrets apart, and keys that tell passwords apart. -/
def keySampleCrypto : KeyCrypto where
  toPublic secret := FixedHash.ofBytes 64 (secret.val ++ secret.val)
  toAddress key := FixedHash.ofBytes 20 (key.val.take 20)
  pbkdf2 pass _ _ size := (pass ++ List.replicate size 1).take size
  encrypt secret pass _ := some (pass ++ secret)
  decrypt key pass := some
    (if key.take pass.length = pass then key.drop pass.length else [])

def secretSample : Secret := ⟨List.replicate 32 7, by decide⟩

def firstId : H128 := ⟨List.replicate 16 1, by decide⟩

def secondId : H128 := ⟨List.replicate 16 2, by decide⟩

section

attribute [local instance] keySampleCrypto

/-- A manager on an empty directory. -/
def openedSample : KeyManager :=
  opened plainVisits [47] ∅ [112] (hashOfNat 1) (hashOfNat 2)

def importSample (random : H128) : Visits × KeyStep :=
  (plainVisits, .import_ secretSample [97] [113] [] random)

theorem openedSample_empty :
    openedSample.addrLookup = ∅ ∧ openedSample.uuidLookup = ∅ ∧
      openedSample.store.keys = ∅ :=
  ⟨rfl, rfl, rfl⟩

theorem orderly_empty : SecretStore.Orderly ∅ := by
  refine ⟨rfl, ?_, ?_, ?_⟩
  · intro name file there
    cases there
  · intro name other file found there
    cases there
  · intro name other file found there
    cases there

theorem run_bookKept_sample :
    BookKept (openedSample.run [importSample firstId]) := by
  obtain ⟨addresses, uuids, keys⟩ := openedSample_empty
  refine run_bookKept plainVisits [47] ∅ [112] (hashOfNat 1) (hashOfNat 2)
    [importSample firstId] orderly_empty (by decide) ?_
  refine ⟨⟨⟨by decide, by decide, ?_, ?_⟩, ?_⟩, trivial⟩
  · intro _ other found
    rw [← openedSample, addresses] at found
    cases found
  · intro other _ found
    rw [← openedSample, uuids] at found
    cases found
  · rw [← openedSample, keys]
    exact AList.notMem_empty _

/-- The same secret is imported twice. -/
def importedTwice : KeyManager :=
  openedSample.run [importSample firstId, importSample secondId]

/-- The second import takes the address from the first key, and killing the
address leaves that key. -/
theorem importedTwice_not_bookKept :
    importedTwice.uuid (importedTwice.address firstId) = secondId ∧
      (importedTwice.kill plainVisits
        (keyPairAddress secretSample)).2.hasAccount
          (keyPairAddress secretSample) = true ∧
      ¬ BookKept importedTwice := by
  have other : importedTwice.uuid (importedTwice.address firstId) =
      secondId := by decide +kernel
  have account : (importedTwice.kill plainVisits
      (keyPairAddress secretSample)).2.hasAccount
        (keyPairAddress secretSample) = true := by decide +kernel
  refine ⟨other, account, fun kept => ?_⟩
  have killed := (kept.killed plainVisits (keyPairAddress secretSample) []
    (by simp)).1
  rw [reopenAll, account] at killed
  cases killed

end

end KeyManager

end Aecmio
