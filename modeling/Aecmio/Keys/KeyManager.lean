import Aecmio.Keys.SecretStore

/-!
# The key manager

`KeyManager` maps addresses to keys and keys to addresses, in two tables, and
keeps what is known of each address in a third one.  These three survive in
the keys file, which is encrypted with a key derived from a password.  The
keys file and its salt are part of the model, like the files of the store.
-/

namespace Aecmio

open KeyCrypto

structure KeyInfo where
  passHash : H256
  accountName : Bytes
  passwordHint : Bytes
deriving DecidableEq

/-- What the keys file says of an address. -/
structure KeysEntry where
  address : Address
  uuid : H128
  info : KeyInfo
deriving DecidableEq

/-- The list that is written to the keys file. -/
structure Keys where
  version : Nat := 1
  keyInfo : List KeysEntry
  passwordHint : List (H256 × Bytes)
  defaultPassword : Bytes
deriving DecidableEq

/-- The keys file, by the key it is encrypted with and what it holds. -/
structure KeysFile where
  key : H128
  content : Keys
deriving DecidableEq

structure KeyManager where
  uuidLookup : AList fun _ : H128 => Address := ∅
  addrLookup : AList fun _ : Address => H128 := ∅
  keyInfo : AList fun _ : Address => KeyInfo := ∅
  passwordHints : AList fun _ : H256 => Bytes := ∅
  cachedPasswords : AList fun _ : H256 => Bytes := ∅
  defaultPasswordDeprecated : Bytes := []
  keysFileKey : H128 := zeroHash 16
  master : H256 := zeroHash 32
  store : SecretStore
  salt : Bytes := []
  keysFile : Option KeysFile := none

namespace KeyManager

/-- The zero identifier if there is no key. -/
def uuid (manager : KeyManager) (address : Address) : H128 :=
  (manager.addrLookup.lookup address).getD (zeroHash 16)

/-- The zero address if there is none. -/
def address (manager : KeyManager) (uuid : H128) : Address :=
  (manager.uuidLookup.lookup uuid).getD zeroAddress

/-- The body of the loop of the constructor. -/
def note (manager : KeyManager) (uuid : H128) : KeyManager :=
  let addr := manager.store.address uuid
  { manager with
    addrLookup := manager.addrLookup.insert addr uuid
    uuidLookup := manager.uuidLookup.insert uuid addr }

/-- The constructor, on the files that it finds. -/
def construct (visits : Visits) (path : Bytes)
    (files : AList fun _ : Bytes => KeyFile) (salt : Bytes)
    (keysFile : Option KeysFile) : KeyManager :=
  let store := SecretStore.load visits path files
  (store.keyList visits).foldl note { store, salt, keysFile }

def hasAccount (manager : KeyManager) (address : Address) : Bool :=
  address ≠ zeroAddress ∧ (address ∈ manager.keyInfo ∨
    ∃ uuid ∈ manager.store.keys.keys, manager.store.address uuid = address)

/-- The addresses that `accounts()` returns in their order. -/
def accounts (manager : KeyManager) : Finset Address :=
  (manager.keyInfo.keys.toFinset ∪
    (manager.store.keys.keys.map manager.store.address).toFinset).erase
      zeroAddress

section

variable [KeyCrypto]

/-! ## Passwords -/

def hashPassword (manager : KeyManager) (pass : Bytes) : H256 :=
  FixedHash.ofBytes 32
    (pbkdf2 pass manager.defaultPasswordDeprecated 262144 32)

/-- The key of a keys file with this salt. -/
def fileKey (pass salt : Bytes) : H128 :=
  FixedHash.ofBytes 16 (pbkdf2 pass salt 262144 16)

def cachePassword (manager : KeyManager) (password : Bytes) : KeyManager :=
  { manager with
    cachedPasswords := manager.cachedPasswords.insert
      (manager.hashPassword password) password }

def noteHint (manager : KeyManager) (pass hint : Bytes) : KeyManager :=
  if hint = [] then manager
  else { manager with
    passwordHints := manager.passwordHints.insert (manager.hashPassword pass)
      hint }

/-- The loop of `getPassword`, with the tries that are left: `pass` gives the
answers, and `none` is an exception. -/
def askPassword (manager : KeyManager) (passHash : H256)
    (pass : Nat → Option Bytes) : Nat → Option Bytes × KeyManager
  | 0 => (some [], manager)
  | tries + 1 =>
      match pass tries with
      | none => (none, manager)
      | some password =>
          if password = [] then (some [], manager)
          else if passHash = zeroHash 32 ∨
              manager.hashPassword password = passHash then
            (some password, manager.cachePassword password)
          else manager.askPassword passHash pass tries

def getPassword (manager : KeyManager) (passHash : H256)
    (pass : Nat → Option Bytes) : Option Bytes × KeyManager :=
  match manager.cachedPasswords.lookup passHash with
  | some password => (some password, manager)
  | none => manager.askPassword passHash pass 10

/-- `getPassword(uuid, pass)`. -/
def getPasswordOf (manager : KeyManager) (uuid : H128)
    (pass : Nat → Option Bytes) : Option Bytes × KeyManager :=
  let passHash := ((manager.uuidLookup.lookup uuid).bind fun address =>
    (manager.keyInfo.lookup address).map KeyInfo.passHash).getD (zeroHash 32)
  manager.getPassword passHash pass

/-! ## The keys file -/

/-- What is written: the key of an address without one is zero. -/
def contents (visits : Visits) (manager : KeyManager) : Keys where
  keyInfo := (visits.order manager.keyInfo.entries).map fun entry =>
    ⟨entry.1, manager.uuid entry.1, entry.2⟩
  passwordHint := (visits.order manager.passwordHints.entries).map fun hint =>
    (hint.1, hint.2)
  defaultPassword := manager.defaultPasswordDeprecated

/-- `write(key, keysFile)`, which throws after all if the default password is
not cached. -/
def writeWith (visits : Visits) (key : H128) (manager : KeyManager) :
    Option Unit × KeyManager :=
  let manager := { manager with
    keysFile := some ⟨key, manager.contents visits⟩
    keysFileKey := key }
  match manager.getPassword manager.master fun _ => none with
  | (none, manager) => (none, manager)
  | (some password, manager) => (some (), manager.cachePassword password)

/-- `write(keysFile)`: nothing without a key. -/
def write (visits : Visits) (manager : KeyManager) :
    Option Unit × KeyManager :=
  if manager.keysFileKey = zeroHash 16 then (some (), manager)
  else manager.writeWith visits manager.keysFileKey

/-- `create(pass)`, with the random numbers that become the default password
and the salt. -/
def create (visits : Visits) (pass : Bytes) (random salt : H256)
    (manager : KeyManager) : Option Unit × KeyManager :=
  let manager := { manager with
    defaultPasswordDeprecated := random.val, salt := salt.val }
  let key := fileKey pass manager.salt
  let manager := manager.cachePassword pass
  let manager := { manager with master := manager.hashPassword pass }
  manager.writeWith visits key

/-- The body of the loop of `load`, with `saveRequired`. -/
def loadEntry (loading : Bool × KeyManager) (entry : KeysEntry) :
    Bool × KeyManager :=
  let (saveRequired, manager) := loading
  if entry.uuid ≠ zeroHash 16 then
    if manager.store.contains entry.uuid then
      let (noted, store) := manager.store.noteAddress entry.uuid entry.address
      (saveRequired || noted, { manager with
        addrLookup := manager.addrLookup.insert entry.address entry.uuid
        uuidLookup := manager.uuidLookup.insert entry.uuid entry.address
        keyInfo := manager.keyInfo.insert entry.address entry.info
        store })
    else loading
  else (saveRequired, { manager with
    keyInfo := manager.keyInfo.insert entry.address entry.info })

/-- What `load` takes over from a keys file of version 1. -/
def loadKeys (visits : Visits) (content : Keys) (manager : KeyManager) :
    KeyManager :=
  let (saveRequired, manager) := content.keyInfo.foldl loadEntry
    (false, manager)
  let manager :=
    if saveRequired then
      { manager with store := manager.store.save visits }
    else manager
  { manager with
    passwordHints := content.passwordHint.foldl
      (fun hints hint => hints.insert hint.1 hint.2) manager.passwordHints
    defaultPasswordDeprecated := content.defaultPassword }

/-- `load(pass)`, where `garbled` is what a wrong key makes of the file. -/
def load (visits : Visits) (pass : Bytes) (garbled : Option Keys)
    (manager : KeyManager) : Bool × KeyManager :=
  match manager.keysFile with
  | none => (false, manager)
  | some file =>
      let key := fileKey pass manager.salt
      let manager := { manager with keysFileKey := key }
      match if key = file.key then some file.content else garbled with
      | none => (false, manager)
      | some content =>
          let manager :=
            if content.version = 1 then manager.loadKeys visits content
            else manager
          let manager := manager.cachePassword
            manager.defaultPasswordDeprecated
          let manager := manager.cachePassword manager.keysFileKey.val
          let manager := { manager with master := manager.hashPassword pass }
          (true, manager.cachePassword pass)

/-! ## The operations -/

/-- `import(secret, accountName, pass, passwordHint)`, where `random` is the
identifier of the key. -/
def import_ (visits : Visits) (secret : Secret)
    (accountName pass passwordHint : Bytes) (random : H128)
    (manager : KeyManager) : Option H128 × KeyManager :=
  let addr := keyPairAddress secret
  let passHash := manager.hashPassword pass
  let manager := manager.cachePassword pass
  let manager := { manager with
    passwordHints := manager.passwordHints.insert passHash passwordHint }
  match manager.store.importSecret visits secret.val pass random with
  | none => (none, manager)
  | some store =>
      let (written, manager) := write visits { manager with
        store
        keyInfo := manager.keyInfo.insert addr ⟨passHash, accountName, []⟩
        addrLookup := manager.addrLookup.insert addr random
        uuidLookup := manager.uuidLookup.insert random addr }
      (written.map fun _ => random, manager)

/-- `importExisting(uuid, accountName, address, passHash, passwordHint)`. -/
def importExistingAt (visits : Visits) (uuid : H128) (accountName : Bytes)
    (address : Address) (passHash : H256) (passwordHint : Bytes)
    (manager : KeyManager) : Option Unit × KeyManager :=
  let passwordHints :=
    if passHash ∈ manager.passwordHints then manager.passwordHints
    else manager.passwordHints.insert passHash passwordHint
  let old := (manager.keyInfo.lookup address).getD ⟨zeroHash 32, [], []⟩
  write visits { manager with
    passwordHints
    uuidLookup := manager.uuidLookup.insert uuid address
    addrLookup := manager.addrLookup.insert address uuid
    keyInfo := manager.keyInfo.insert address
      { old with passHash, accountName } }

/-- `importExisting(uuid, info, pass, passwordHint)`. -/
def importExisting (visits : Visits) (uuid : H128)
    (info pass passwordHint : Bytes) (manager : KeyManager) :
    Option Unit × KeyManager :=
  match manager.store.secret uuid (some pass) with
  | none => (none, manager)
  | some ([], store) => (some (), { manager with store })
  | some (key, store) =>
      let manager := { manager with store }
      let address := keyPairAddress (FixedHash.ofBytes 32 key)
      let passHash := manager.hashPassword pass
      let manager :=
        if passHash ∈ manager.cachedPasswords then manager
        else manager.cachePassword pass
      manager.importExistingAt visits uuid info address passHash passwordHint

/-- `recode(address, newPass, hint, pass, kdf)`. -/
def recode (visits : Visits) (address : Address) (newPass hint : Bytes)
    (pass : Nat → Option Bytes) (kdf : KDF) (manager : KeyManager) :
    Option Bool × KeyManager :=
  let manager := manager.noteHint newPass hint
  let uuid := manager.uuid address
  let (password, manager) :=
    if manager.store.asks uuid then manager.getPasswordOf uuid pass
    else (none, manager)
  match manager.store.recode visits uuid newPass password kdf with
  | (some true, store) =>
      let old := (manager.keyInfo.lookup address).getD ⟨zeroHash 32, [], []⟩
      let (written, manager) := write visits { manager with
        store
        keyInfo := manager.keyInfo.insert address
          { old with passHash := manager.hashPassword newPass } }
      (written.map fun _ => true, manager)
  | (result, store) => (result, { manager with store })

/-- `kill(address)`. -/
def kill (visits : Visits) (address : Address) (manager : KeyManager) :
    Option Unit × KeyManager :=
  let id := manager.uuid address
  write visits { manager with
    uuidLookup := manager.uuidLookup.erase id
    addrLookup := manager.addrLookup.erase address
    keyInfo := manager.keyInfo.erase address
    store := manager.store.kill id }

/-- A new manager on the files of this one, followed by `load(pass)`. -/
def reopen (visits : Visits) (pass : Bytes) (garbled : Option Keys)
    (manager : KeyManager) : Bool × KeyManager :=
  (construct visits manager.store.path manager.store.files manager.salt
    manager.keysFile).load visits pass garbled

end

end KeyManager

end Aecmio
