import Aecmio.Chain.BlockHeader
import Aecmio.Logic.Inverse
import Aecmio.Network.FrameCoder
import Aecmio.State.State

/-!
# The store of encrypted keys

`SecretStore` keeps one file for each key in a directory and the keys of all
files in memory.  A key is named by its identifier; the address may be
unknown, which the zero address stands for.  The directory is part of the
model: it holds the files that `readKeyContent` can read.
-/

namespace Aecmio

inductive KDF where
  | pbkdf2Sha256
  | scrypt
deriving DecidableEq

/-- What the key store uses of secp256k1 and of Crypto++.  `none` stands for
an exception. -/
class KeyCrypto where
  /-- Zero for an invalid secret. -/
  toPublic : Secret → Public
  toAddress : Public → Address
  pbkdf2 : Bytes → Bytes → Nat → Nat → Bytes
  encrypt : Bytes → Bytes → KDF → Option Bytes
  /-- Empty for a wrong password. -/
  decrypt : Bytes → Bytes → Option Bytes

open Inverses (lookup_insert_eq lookup_erase_eq)
open KeyCrypto

/-- `KeyPair(secret).address()`. -/
def keyPairAddress [KeyCrypto] (secret : Secret) : Address :=
  if toPublic secret = zeroHash 64 then zeroAddress
  else toAddress (toPublic secret)

/-- The order in which the loops of a call visit an unordered map or a
directory. -/
structure Visits where
  order : ∀ {α : Type}, List α → List α
  perm : ∀ {α : Type} (list : List α), (order list).Perm list

theorem Visits.mem_order {α : Type} {visits : Visits} {list : List α}
    {element : α} : element ∈ visits.order list ↔ element ∈ list :=
  (visits.perm list).mem_iff

/-- A file of a key, as it is read. -/
structure KeyFile where
  id : H128
  address : Address
  crypto : Bytes
deriving DecidableEq

structure EncryptedKey where
  encryptedKey : Bytes
  filename : Bytes
  address : Address
deriving DecidableEq

def hexDigit (digit : Nat) : UInt8 :=
  if digit < 10 then UInt8.ofNat (48 + digit) else UInt8.ofNat (87 + digit)

def toHex (content : Bytes) : Bytes :=
  content.flatMap fun byte =>
    [hexDigit (byte.toNat / 16), hexDigit (byte.toNat % 16)]

/-- The hyphens stand after 8, 12, 16 and 20 digits. -/
def toUUID (uuid : H128) : Bytes :=
  [20, 16, 12, 8].foldl (fun digits place => digits.insertIdx place 45)
    (toHex uuid.val)

/-- `m_cached`, `m_keys` and `m_path`, with the files of that directory. -/
structure SecretStore where
  path : Bytes
  files : AList fun _ : Bytes => KeyFile := ∅
  keys : AList fun _ : H128 => EncryptedKey := ∅
  cached : AList fun _ : H128 => Bytes := ∅

namespace SecretStore

def contains (store : SecretStore) (uuid : H128) : Bool := uuid ∈ store.keys

/-- `m_keys.at(uuid).address`, if there is such a key. -/
def addressOf (store : SecretStore) (uuid : H128) : Option Address :=
  (store.keys.lookup uuid).map EncryptedKey.address

/-- `address(uuid)` for the keys of the store. -/
def address (store : SecretStore) (uuid : H128) : Address :=
  (store.addressOf uuid).getD zeroAddress

/-- `keys()`. -/
def keyList (visits : Visits) (store : SecretStore) : List H128 :=
  visits.order store.keys.keys

def noteAddress (store : SecretStore) (uuid : H128) (address : Address) :
    Bool × SecretStore :=
  match store.keys.lookup uuid with
  | none => (false, store)
  | some key =>
      if key.address = zeroAddress then
        (true, { store with
          keys := store.keys.insert uuid { key with address } })
      else (false, store)

/-- `<path>/<uuid>.json`. -/
def jsonName (store : SecretStore) (uuid : H128) : Bytes :=
  store.path ++ [47] ++ toUUID uuid ++ [46, 106, 115, 111, 110]

/-- The body of the loop of `save`. -/
def saveKey (store : SecretStore) (uuid : H128) : SecretStore :=
  match store.keys.lookup uuid with
  | none => store
  | some key =>
      let filename := store.jsonName uuid
      let written := store.files.insert filename
        ⟨uuid, key.address, key.encryptedKey⟩
      { store with
        keys := store.keys.insert uuid { key with filename }
        files :=
          if key.filename ≠ [] ∧ key.filename ≠ filename then
            written.erase key.filename
          else written }

def save (visits : Visits) (store : SecretStore) : SecretStore :=
  (store.keyList visits).foldl saveKey store

/-- `readKeyContent`, for what `load` has found in a file. -/
def readKeyContent (store : SecretStore) (filename : Bytes) (file : KeyFile) :
    SecretStore :=
  { store with
    keys := store.keys.insert file.id ⟨file.crypto, filename, file.address⟩ }

/-- The constructor, which loads all keys of the directory. -/
def load (visits : Visits) (path : Bytes)
    (files : AList fun _ : Bytes => KeyFile) : SecretStore :=
  (visits.order files.entries).foldl
    (fun store entry => store.readKeyContent entry.1 entry.2) { path, files }

/-- `kill(uuid)`, from memory and from the directory. -/
def kill (store : SecretStore) (uuid : H128) : SecretStore :=
  let store := { store with cached := store.cached.erase uuid }
  match store.keys.lookup uuid with
  | none => store
  | some key =>
      { store with
        files := store.files.erase key.filename
        keys := store.keys.erase uuid }

section

variable [KeyCrypto]

/-- Whether `secret` has to ask for a password. -/
def asks (store : SecretStore) (uuid : H128) : Bool :=
  uuid ∉ store.cached ∧ uuid ∈ store.keys

/-- `secret(uuid, pass)` with the cache: `pass` is the answer to the question
for a password, `none` an exception. -/
def secret (store : SecretStore) (uuid : H128) (pass : Option Bytes) :
    Option (Bytes × SecretStore) :=
  match store.cached.lookup uuid with
  | some key => some (key, store)
  | none =>
      match store.keys.lookup uuid with
      | none => some ([], store)
      | some encrypted =>
          match pass.bind (decrypt encrypted.encryptedKey) with
          | none => none
          | some [] => some ([], store)
          | some key =>
              let store := { store with
                cached := store.cached.insert uuid key }
              some (key, (store.noteAddress uuid
                (toAddress (toPublic (FixedHash.ofBytes 32 key)))).2)

/-- `importSecret(secret, pass)`, where `random` is the new identifier. -/
def importSecret (visits : Visits) (store : SecretStore) (secret pass : Bytes)
    (random : H128) : Option SecretStore :=
  match encrypt secret pass .scrypt with
  | none => none
  | some encryptedKey =>
      some ({ store with
        cached := store.cached.insert random secret
        keys := store.keys.insert random
          ⟨encryptedKey, toUUID random,
            keyPairAddress (FixedHash.ofBytes 32 secret)⟩ }.save visits)

/-- `recode(uuid, newPass, pass, kdf)`: what it returns, or `none` for an
exception, and the store. -/
def recode (visits : Visits) (store : SecretStore) (uuid : H128)
    (newPass : Bytes) (pass : Option Bytes) (kdf : KDF) :
    Option Bool × SecretStore :=
  match store.secret uuid pass with
  | none => (none, store)
  | some ([], store) => (some false, store)
  | some (key, store) =>
      let store := { store with cached := store.cached.erase uuid }
      match encrypt key newPass kdf with
      | none => (none, store)
      | some encryptedKey =>
          let old := (store.keys.lookup uuid).getD ⟨[], [], zeroAddress⟩
          (some true, { store with
            keys := store.keys.insert uuid { old with encryptedKey } }.save
              visits)

end

/-! ## What the operations do to the addresses -/

variable {store after : SecretStore} {uuid other : H128} {visits : Visits}

theorem addressOf_eq_none :
    store.addressOf uuid = none ↔ uuid ∉ store.keys := by
  rw [addressOf, Option.map_eq_none_iff, AList.lookup_eq_none]

theorem addressOf_of_insert (key : EncryptedKey)
    (keys : after.keys = store.keys.insert uuid key) :
    after.addressOf other =
      if other = uuid then some key.address else store.addressOf other := by
  rw [addressOf, keys, lookup_insert_eq]
  split <;> rfl

theorem addressOf_of_lookup {key : EncryptedKey}
    (found : store.keys.lookup uuid = some key) :
    store.addressOf uuid = some key.address := by
  rw [addressOf, found]
  rfl

/-- A key that is put back with its address changes no address. -/
theorem addressOf_of_same {key old : EncryptedKey}
    (found : store.keys.lookup uuid = some old)
    (keys : after.keys = store.keys.insert uuid key)
    (same : key.address = old.address) :
    after.addressOf other = store.addressOf other := by
  rw [addressOf_of_insert key keys]
  split
  · next here => rw [here, same, addressOf_of_lookup found]
  · rfl

theorem addressOf_noteAddress (address : Address) :
    (store.noteAddress uuid address).2.addressOf other =
      if other = uuid ∧ store.addressOf uuid = some zeroAddress then
        some address
      else store.addressOf other := by
  cases found : store.keys.lookup uuid with
  | none =>
      have missing : store.addressOf uuid = none := by
        rw [addressOf, found]
        rfl
      rw [noteAddress, found, missing, if_neg (by simp)]
  | some key =>
      simp only [noteAddress, found, addressOf_of_lookup found,
        Option.some.injEq]
      by_cases unknown : key.address = zeroAddress
      · simp only [unknown, if_true, and_true]
        exact addressOf_of_insert { key with address } rfl
      · simp only [unknown, if_false, and_false]

theorem mem_noteAddress {address : Address} :
    other ∈ (store.noteAddress uuid address).2.keys ↔ other ∈ store.keys := by
  rw [← not_iff_not, ← addressOf_eq_none, ← addressOf_eq_none,
    addressOf_noteAddress]
  split
  · next here => simp [here.1, here.2]
  · rfl

theorem addressOf_saveKey (uuid : H128) :
    (store.saveKey uuid).addressOf other = store.addressOf other := by
  unfold saveKey
  split
  · rfl
  · next key found => exact addressOf_of_same found rfl rfl

theorem addressOf_save :
    (store.save visits).addressOf other = store.addressOf other := by
  unfold save
  generalize store.keyList visits = uuids
  induction uuids generalizing store with
  | nil => rfl
  | cons uuid uuids induction =>
      rw [List.foldl_cons, induction, addressOf_saveKey]

theorem mem_save : other ∈ (store.save visits).keys ↔ other ∈ store.keys := by
  rw [← not_iff_not, ← addressOf_eq_none, ← addressOf_eq_none, addressOf_save]

theorem addressOf_kill :
    (store.kill uuid).addressOf other =
      if other = uuid then none else store.addressOf other := by
  cases found : store.keys.lookup uuid with
  | none =>
      simp only [kill, found]
      split
      · next same =>
          rw [same, addressOf_eq_none]
          exact AList.lookup_eq_none.mp found
      · rfl
  | some key =>
      simp only [kill, found]
      rw [addressOf, lookup_erase_eq]
      split <;> rfl

/-! ## The files of the keys -/

/-- Every file is that of a key in memory, which knows its name; only the
address may still be missing in it.  Only keys of the store are cached. -/
structure Tidy (store : SecretStore) : Prop where
  owned : ∀ name file, store.files.lookup name = some file →
    ∃ key, store.keys.lookup file.id = some key ∧ key.filename = name ∧
      (file.address = key.address ∨ file.address = zeroAddress)
  named : store.files.lookup [] = none
  cached : ∀ uuid, uuid ∈ store.cached → uuid ∈ store.keys

theorem Tidy.noteAddress (tidy : store.Tidy) (address : Address) :
    (store.noteAddress uuid address).2.Tidy := by
  unfold SecretStore.noteAddress
  split
  · exact tidy
  next key found =>
  split
  · next unknown =>
      refine ⟨?_, tidy.named, ?_⟩
      · intro name file there
        obtain ⟨old, owner, named, same⟩ := tidy.owned name file there
        simp only [lookup_insert_eq]
        split
        · next here =>
            rw [here, found] at owner
            cases owner
            rw [unknown, or_self] at same
            exact ⟨_, rfl, named, .inr same⟩
        · exact ⟨old, owner, named, same⟩
      · intro other member
        exact (AList.mem_insert _).mpr (.inr (tidy.cached other member))
  · exact tidy

/-- The file is written under its new name and removed under its old one. -/
theorem Tidy.saveKey (tidy : store.Tidy) (uuid : H128) :
    (store.saveKey uuid).Tidy := by
  unfold SecretStore.saveKey
  split
  · exact tidy
  next key found =>
  have nonempty : [] ≠ store.jsonName uuid := by simp [jsonName]
  refine ⟨?_, ?_, ?_⟩
  · intro name file there
    have written : name = store.jsonName uuid ∧
          file = ⟨uuid, key.address, key.encryptedKey⟩ ∨
        (key.filename ≠ [] → name ≠ key.filename) ∧
          name ≠ store.jsonName uuid ∧ store.files.lookup name = some file := by
      by_cases moved : key.filename ≠ [] ∧ key.filename ≠ store.jsonName uuid
      · simp only [if_pos moved, lookup_erase_eq, lookup_insert_eq] at there
        split at there
        · cases there
        next other =>
        split at there
        · next here => exact .inl ⟨here, (Option.some.inj there).symm⟩
        · next elsewhere => exact .inr ⟨fun _ => other, elsewhere, there⟩
      · simp only [if_neg moved, lookup_insert_eq] at there
        split at there
        · next here => exact .inl ⟨here, (Option.some.inj there).symm⟩
        · next elsewhere =>
            refine .inr ⟨fun some_ same => ?_, elsewhere, there⟩
            rw [not_and_not_right] at moved
            exact elsewhere (same.trans (moved some_))
    simp only [lookup_insert_eq]
    rcases written with ⟨here, same⟩ | ⟨other, elsewhere, there⟩
    · rw [here, same, if_pos rfl]
      exact ⟨_, rfl, rfl, .inl rfl⟩
    · obtain ⟨old, owner, named, address⟩ := tidy.owned name file there
      have different : file.id ≠ uuid := by
        intro same
        rw [same, found] at owner
        cases owner
        refine other (fun empty => ?_) named.symm
        rw [← named, empty, tidy.named] at there
        cases there
      rw [if_neg different]
      exact ⟨old, owner, named, address⟩
  · by_cases moved : key.filename ≠ [] ∧ key.filename ≠ store.jsonName uuid
    · simp only [if_pos moved, lookup_erase_eq, lookup_insert_eq,
        if_neg nonempty, tidy.named, ite_self]
    · simp only [if_neg moved, lookup_insert_eq, if_neg nonempty, tidy.named]
  · intro other member
    exact (AList.mem_insert _).mpr (.inr (tidy.cached other member))

theorem Tidy.save (tidy : store.Tidy) : (store.save visits).Tidy := by
  unfold SecretStore.save
  generalize store.keyList visits = uuids
  induction uuids generalizing store with
  | nil => exact tidy
  | cons uuid uuids induction => exact induction (tidy.saveKey uuid)

theorem Tidy.kill (tidy : store.Tidy) (uuid : H128) :
    (store.kill uuid).Tidy := by
  cases found : store.keys.lookup uuid with
  | none =>
      simp only [SecretStore.kill, found]
      refine ⟨tidy.owned, tidy.named, ?_⟩
      intro other member
      exact tidy.cached other (AList.mem_erase.mp member).2
  | some key =>
      simp only [SecretStore.kill, found]
      refine ⟨?_, ?_, ?_⟩
      · intro name file there
        simp only [lookup_erase_eq] at there
        split at there
        · cases there
        next other =>
        obtain ⟨old, owner, named, address⟩ := tidy.owned name file there
        refine ⟨old, ?_, named, address⟩
        rw [lookup_erase_eq, if_neg, owner]
        intro same
        rw [same, found] at owner
        cases owner
        exact other named.symm
      · simp only [lookup_erase_eq, tidy.named, ite_self]
      · intro other member
        obtain ⟨different, member⟩ := AList.mem_erase.mp member
        exact AList.mem_erase.mpr ⟨different, tidy.cached other member⟩

/-- A key is encrypted anew in its place. -/
theorem Tidy.replace (tidy : store.Tidy) {old : EncryptedKey}
    (found : store.keys.lookup uuid = some old) (encryptedKey : Bytes) :
    Tidy { store with
      cached := store.cached.erase uuid
      keys := store.keys.insert uuid { old with encryptedKey } } := by
  refine ⟨?_, tidy.named, ?_⟩
  · intro name file there
    obtain ⟨key, owner, named, address⟩ := tidy.owned name file there
    simp only [lookup_insert_eq]
    split
    · next same =>
        rw [same, found] at owner
        cases owner
        exact ⟨_, rfl, named, address⟩
    · exact ⟨key, owner, named, address⟩
  · intro other member
    exact (AList.mem_insert _).mpr
      (.inr (tidy.cached other (AList.mem_erase.mp member).2))

/-- The store may have learnt the address of a key that it did not know. -/
def Learns (uuid : H128) (address : Address) (store after : SecretStore) :
    Prop :=
  ∀ other, after.addressOf other =
      if other = uuid ∧ store.addressOf uuid = some zeroAddress then
        some address
      else store.addressOf other

theorem Learns.missing_iff {address : Address}
    (learns : Learns uuid address store after) :
    after.addressOf other = none ↔ store.addressOf other = none := by
  rw [learns]
  split
  · next here => simp [here.1, here.2]
  · rfl

section

variable [KeyCrypto] {pass : Option Bytes} {key : Bytes}

/-- The address of a key, if the password opens it. -/
def opened (store : SecretStore) (uuid : H128) (pass : Option Bytes) :
    Option Address := do
  let encrypted ← store.keys.lookup uuid
  let key ← pass.bind (decrypt encrypted.encryptedKey)
  if key = [] then none
  else some (toAddress (toPublic (FixedHash.ofBytes 32 key)))

/-- Nothing happens, or the key is decrypted and its address noted. -/
theorem secret_cases (tidy : store.Tidy)
    (done : store.secret uuid pass = some (key, after)) :
    after = store ∨
    (key ≠ [] ∧ after.Tidy ∧
      store.opened uuid pass =
        some (toAddress (toPublic (FixedHash.ofBytes 32 key))) ∧
      Learns uuid (toAddress (toPublic (FixedHash.ofBytes 32 key))) store
        after) := by
  unfold secret at done
  split at done
  · cases done
    exact .inl rfl
  split at done
  · cases done
    exact .inl rfl
  next encrypted found =>
  split at done
  · cases done
  · cases done
    exact .inl rfl
  next plain nonempty decrypted =>
  cases done
  have some_ : key ≠ [] := by
    intro empty
    exact nonempty empty
  refine .inr ⟨some_, ?_, ?_, ?_⟩
  · have cached : Tidy { store with
        cached := store.cached.insert uuid key } := by
      refine ⟨tidy.owned, tidy.named, ?_⟩
      intro other member
      rcases (AList.mem_insert _).mp member with same | member
      · rw [same]
        exact AList.lookup_isSome.mp (by rw [found]; rfl)
      · exact tidy.cached other member
    exact cached.noteAddress _
  · simp only [opened, found, Option.bind_eq_bind, Option.bind_some, decrypted,
      if_neg some_]
  · intro other
    exact addressOf_noteAddress _

/-- The imported key is the only new one. -/
theorem importSecret_some {secret password : Bytes} {random : H128}
    (tidy : store.Tidy) (new : store.addressOf random = none)
    (done : store.importSecret visits secret password random = some after) :
    after.Tidy ∧ ∀ other, after.addressOf other =
      if other = random then
        some (keyPairAddress (FixedHash.ofBytes 32 secret))
      else store.addressOf other := by
  unfold importSecret at done
  split at done
  · cases done
  cases done
  refine ⟨Tidy.save ⟨?_, tidy.named, ?_⟩, ?_⟩
  · intro name file there
    obtain ⟨old, owner, found⟩ := tidy.owned name file there
    refine ⟨old, ?_, found⟩
    rw [lookup_insert_eq, if_neg, owner]
    intro same
    rw [same] at owner
    rw [addressOf_of_lookup owner] at new
    cases new
  · intro other member
    rcases (AList.mem_insert _).mp member with same | member
    · exact (AList.mem_insert _).mpr (.inl same)
    · exact (AList.mem_insert _).mpr (.inr (tidy.cached other member))
  · intro other
    rw [addressOf_save]
    exact addressOf_of_insert ⟨_, toUUID random, _⟩ rfl

theorem secret_missing (tidy : store.Tidy)
    (missing : store.addressOf uuid = none) :
    store.secret uuid pass = some ([], store) := by
  rw [addressOf_eq_none] at missing
  have uncached : uuid ∉ store.cached := by
    intro member
    exact missing (tidy.cached uuid member)
  simp only [secret, AList.lookup_eq_none.mpr uncached,
    AList.lookup_eq_none.mpr missing]

/-- A key that the store does not have is not encrypted anew. -/
theorem recode_missing {newPass : Bytes} {kdf : KDF} (tidy : store.Tidy)
    (missing : store.addressOf uuid = none) :
    store.recode visits uuid newPass pass kdf = (some false, store) := by
  simp only [recode, secret_missing tidy missing]

theorem secret_contains (tidy : store.Tidy)
    (done : store.secret uuid pass = some (key, after)) (some_ : key ≠ []) :
    uuid ∈ store.keys := by
  by_contra missing
  rw [secret_missing tidy (addressOf_eq_none.mpr missing)] at done
  cases done
  exact some_ rfl

/-- No key gets another address, but the store may learn that of the key. -/
theorem recode_cases {newPass : Bytes} {kdf : KDF} {result : Option Bool}
    (tidy : store.Tidy)
    (done : store.recode visits uuid newPass pass kdf = (result, after)) :
    after.Tidy ∧
      ((∀ other, after.addressOf other = store.addressOf other) ∨
        ∃ address, store.opened uuid pass = some address ∧
          Learns uuid address store after) := by
  unfold recode at done
  split at done
  · cases done
    exact ⟨tidy, .inl fun _ => rfl⟩
  · next middle read =>
      cases done
      rcases secret_cases tidy read with same | ⟨some_, -⟩
      · rw [same]
        exact ⟨tidy, .inl fun _ => rfl⟩
      · exact absurd rfl some_
  next key middle nonempty read =>
  have some_ : key ≠ [] := fun empty => nonempty empty
  have learnt : middle.Tidy ∧
      ((∀ other, middle.addressOf other = store.addressOf other) ∨
        ∃ address, store.opened uuid pass = some address ∧
          Learns uuid address store middle) := by
    rcases secret_cases tidy read with same | ⟨-, kept, opened, learns⟩
    · rw [same]
      exact ⟨tidy, .inl fun _ => rfl⟩
    · exact ⟨kept, .inr ⟨_, opened, learns⟩⟩
  obtain ⟨kept, addresses⟩ := learnt
  split at done
  · cases done
    refine ⟨⟨kept.owned, kept.named, ?_⟩, addresses⟩
    intro other member
    exact kept.cached other (AList.mem_erase.mp member).2
  · next encryptedKey encrypted =>
      cases found : middle.keys.lookup uuid with
      | none =>
          have missing := AList.lookup_eq_none.mp found
          rw [← addressOf_eq_none] at missing
          have gone : store.addressOf uuid = none := by
            rcases addresses with unchanged | ⟨address, -, learns⟩
            · rw [← unchanged, missing]
            · exact learns.missing_iff.mp missing
          rw [addressOf_eq_none] at gone
          exact absurd (secret_contains tidy read some_) gone
      | some old =>
          simp only [found, Option.getD_some] at done
          cases done
          have same : ∀ other, addressOf (save visits { middle with
              cached := middle.cached.erase uuid
              keys := middle.keys.insert uuid { old with encryptedKey } })
                other = middle.addressOf other := by
            intro other
            rw [addressOf_save]
            exact addressOf_of_same found rfl rfl
          refine ⟨(kept.replace found encryptedKey).save, ?_⟩
          rcases addresses with unchanged | ⟨address, opened, learns⟩
          · exact .inl fun other => (same other).trans (unchanged other)
          · exact .inr ⟨address, opened, fun other =>
              (same other).trans (learns other)⟩

end

/-! ## Loading the files -/

/-- A directory in which no two files are of one key or of one address. -/
structure Orderly (files : AList fun _ : Bytes => KeyFile) : Prop where
  named : files.lookup [] = none
  nonzero : ∀ name file, files.lookup name = some file →
    file.id ≠ zeroHash 16
  ids : ∀ name other file found, files.lookup name = some file →
    files.lookup other = some found → file.id = found.id → name = other
  addresses : ∀ name other file found, files.lookup name = some file →
    files.lookup other = some found → file.address = found.address →
      file.address ≠ zeroAddress → name = other

variable {path : Bytes} {files : AList fun _ : Bytes => KeyFile}
  {entries : List (Sigma fun _ : Bytes => KeyFile)}

/-- The loop over the files, from the last one back. -/
theorem foldl_readKeyContent :
    let after := entries.foldl
      (fun store entry => store.readKeyContent entry.1 entry.2) store
    after.files = store.files ∧ after.cached = store.cached ∧
    (∀ uuid key, after.keys.lookup uuid = some key →
      store.keys.lookup uuid = some key ∨
      ∃ entry ∈ entries, entry.2.id = uuid ∧
        key = ⟨entry.2.crypto, entry.1, entry.2.address⟩) ∧
    ∀ uuid, uuid ∈ after.keys ↔
      uuid ∈ store.keys ∨ ∃ entry ∈ entries, entry.2.id = uuid := by
  induction entries generalizing store with
  | nil => simp
  | cons entry entries induction =>
      obtain ⟨files, cached, from_, contains⟩ :=
        @induction (store.readKeyContent entry.1 entry.2)
      refine ⟨files, cached, ?_, ?_⟩
      · intro uuid key found
        rcases from_ uuid key found with old | ⟨other, member, same⟩
        · simp only [readKeyContent, lookup_insert_eq] at old
          split at old
          · next here =>
              exact .inr ⟨entry, List.mem_cons_self, here.symm,
                (Option.some.inj old).symm⟩
          · exact .inl old
        · exact .inr ⟨other, List.mem_cons_of_mem _ member, same⟩
      · intro uuid
        rw [List.foldl_cons, contains]
        simp only [readKeyContent, AList.mem_insert, List.mem_cons,
          exists_eq_or_imp]
        tauto

/-- An orderly directory is loaded as it is. -/
theorem load_tidy (orderly : Orderly files) :
    (load visits path files).Tidy ∧
      ∀ uuid address, (load visits path files).addressOf uuid = some address ↔
        ∃ name file, files.lookup name = some file ∧ file.id = uuid ∧
          file.address = address := by
  obtain ⟨same, cached, from_, contains⟩ := @foldl_readKeyContent
    { path, files } (visits.order files.entries)
  have here : ∀ name file, files.lookup name = some file →
      (load visits path files).keys.lookup file.id =
        some ⟨file.crypto, name, file.address⟩ := by
    intro name file there
    have member : (⟨name, file⟩ : Sigma fun _ : Bytes => KeyFile) ∈
        visits.order files.entries :=
      Visits.mem_order.mpr (AList.mem_lookup_iff.mp there)
    have loaded := (contains file.id).mpr (.inr ⟨_, member, rfl⟩)
    obtain ⟨key, found⟩ :=
      Option.isSome_iff_exists.mp (AList.lookup_isSome.mpr loaded)
    rcases from_ file.id key found with none | ⟨entry, among, id, rfl⟩
    · cases none
    · have other : files.lookup entry.1 = some entry.2 :=
        AList.mem_lookup_iff.mpr (Visits.mem_order.mp among)
      have equal := orderly.ids _ _ _ _ other there id
      rw [equal, there, Option.some.injEq] at other
      rw [load, found, ← equal, ← other]
  have loaded : (load visits path files).files = files := same
  have uncached : (load visits path files).cached = ∅ := cached
  refine ⟨⟨?_, ?_, ?_⟩, fun uuid address => ⟨?_, ?_⟩⟩
  · intro name file there
    rw [loaded] at there
    exact ⟨_, here name file there, rfl, .inl rfl⟩
  · rw [loaded]
    exact orderly.named
  · intro uuid member
    rw [uncached] at member
    exact absurd member (AList.notMem_empty uuid)
  · intro known
    obtain ⟨key, found, address⟩ := Option.map_eq_some_iff.mp known
    rcases from_ uuid key found with none | ⟨entry, among, id, rfl⟩
    · cases none
    · exact ⟨entry.1, entry.2,
        AList.mem_lookup_iff.mpr (Visits.mem_order.mp among), id, address⟩
  · rintro ⟨name, file, there, id, address⟩
    rw [← id, addressOf_of_lookup (here name file there), ← address]

end SecretStore

end Aecmio
