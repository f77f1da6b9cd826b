import Aecmio.State.State

/-!
# What the change log remembers of an account

The log entries of one address, newest first, and the account in the cache.
Accounts are compared by what can be observed of them, up to the storage
slots that entries still to be undone will overwrite.  `SoundLog` is the
invariant that lets the unchanged mark be trusted: an account with entries is
dirty, and one that was touched while it was clean and empty agrees with the
trie again when its entries are undone.
-/

namespace Aecmio

variable [Hashing]

/-! ## What is observed of an account -/

namespace OverlayDB

/-- The value that a storage trie holds for a key. -/
def slot (db : OverlayDB) (root : H256) (key : U256) : U256 :=
  match db.openTrie root with
  | .ok contents =>
      match storageValue ((contents.lookup (storageKey key)).getD []) with
      | .ok value => value
      | .error _ => 0
  | .error _ => 0

end OverlayDB

namespace Account

/-- The storage value that the account has for a key. -/
def value (db : OverlayDB) (account : Account) (key : U256) : U256 :=
  match account.storageOverlay.lookup key with
  | some value => value
  | none => db.slot account.storageRoot key

/-- The code that the account has. -/
def codeOf (db : OverlayDB) (account : Account) : Bytes :=
  if account.codeHash = emptySHA3 then []
  else if account.codeCache.isEmpty then db.lookup account.codeHash
  else account.codeCache

/-- Nothing but storage slots among `keys` tells the accounts apart. -/
structure AlikeOff (db : OverlayDB) (keys : List U256)
    (left right : Account) : Prop where
  isAlive : left.isAlive = right.isAlive
  nonce : left.nonce = right.nonce
  balance : left.balance = right.balance
  codeHash : left.codeHash = right.codeHash
  code : left.codeOf db = right.codeOf db
  storageRoot : left.storageRoot = right.storageRoot
  value : ∀ key, key ∉ keys → left.value db key = right.value db key

/-- Nothing observable tells the accounts apart. -/
abbrev Alike (db : OverlayDB) (left right : Account) : Prop :=
  AlikeOff db [] left right

namespace AlikeOff

variable {db : OverlayDB} {keys : List U256} {left middle right : Account}

theorem refl (account : Account) : AlikeOff db keys account account :=
  ⟨rfl, rfl, rfl, rfl, rfl, rfl, fun _ _ => rfl⟩

theorem symm (alike : AlikeOff db keys left right) :
    AlikeOff db keys right left :=
  ⟨alike.isAlive.symm, alike.nonce.symm, alike.balance.symm,
    alike.codeHash.symm, alike.code.symm, alike.storageRoot.symm,
    fun key free => (alike.value key free).symm⟩

theorem trans (first : AlikeOff db keys left middle)
    (second : AlikeOff db keys middle right) :
    AlikeOff db keys left right :=
  ⟨first.isAlive.trans second.isAlive, first.nonce.trans second.nonce,
    first.balance.trans second.balance,
    first.codeHash.trans second.codeHash, first.code.trans second.code,
    first.storageRoot.trans second.storageRoot,
    fun key free => (first.value key free).trans (second.value key free)⟩

theorem mono {more : List U256} (alike : AlikeOff db keys left right)
    (included : ∀ key ∈ keys, key ∈ more) : AlikeOff db more left right :=
  { alike with
    value := fun key free =>
      alike.value key fun member => free (included key member) }

theorem isEmpty (alike : AlikeOff db keys left right) :
    left.isEmpty = right.isEmpty := by
  simp [Account.isEmpty, alike.nonce, alike.balance, alike.codeHash]

end AlikeOff

variable {db : OverlayDB} {keys : List U256} {left right : Account}

theorem value_setStorage (account : Account) (key value other : U256) :
    (account.setStorage key value).value db other =
      if other = key then value else account.value db other := by
  by_cases same : other = key
  · subst same
    simp [Account.value, setStorage, changed]
  · simp [Account.value, setStorage, changed, same]

theorem value_cleared (account : Account) (root : H256) (key : U256) :
    (account.setStorageRoot root).value db key = db.slot root key := by
  simp [Account.value, setStorageRoot, changed]

theorem codeOf_setCode (account : Account) (code : Bytes) :
    (account.setCode code).codeOf db =
      if sha3 code = emptySHA3 then []
      else if code.isEmpty then db.lookup (sha3 code) else code := rfl

end Account

/-! ## Undoing entries -/

namespace ChangeKind

/-- The entry that the first change of an account leaves, when there is one
of its own. -/
def opens : ChangeKind → Bool
  | .create => true
  | .touch => true
  | _ => false

/-- The storage slots that undoing the entries overwrites. -/
def keys (kinds : List ChangeKind) : List U256 :=
  kinds.filterMap fun kind =>
    match kind with
    | .storage key _ => some key
    | _ => none

/-- The rounds of `rollback` for the account, on its entry in the cache. -/
def undoAll (kinds : List ChangeKind) (entry : Option Account) :
    Option Account :=
  kinds.foldl (fun entry kind => kind.undo (entry.getD .dead)) entry

theorem undoAll_append (first second : List ChangeKind)
    (entry : Option Account) :
    undoAll (first ++ second) entry = undoAll second (undoAll first entry) :=
  List.foldl_append

variable {db : OverlayDB} {left right left' : Account}

/-- Undoing one entry respects likeness, and a slot it overwrites becomes
alike. -/
theorem undo_alikeOff {kind : ChangeKind} {kinds : List ChangeKind}
    (alike : Account.AlikeOff db (keys (kind :: kinds)) left right)
    (undone : kind.undo left = some left') :
    ∃ right', kind.undo right = some right' ∧
      Account.AlikeOff db (keys kinds) left' right' := by
  cases kind with
  | create => simp [undo] at undone
  | balance amount =>
      obtain rfl := Option.some.inj undone
      refine ⟨_, rfl, { alike with balance := ?_ }⟩
      simp [Account.addBalance, Account.changed, alike.balance]
  | nonce nonce =>
      obtain rfl := Option.some.inj undone
      exact ⟨_, rfl, { alike with nonce := rfl }⟩
  | touch =>
      obtain rfl := Option.some.inj undone
      exact ⟨_, rfl, { alike with }⟩
  | code code =>
      obtain rfl := Option.some.inj undone
      exact ⟨_, rfl, { alike with codeHash := rfl, code := rfl }⟩
  | storageRoot root =>
      obtain rfl := Option.some.inj undone
      refine ⟨_, rfl, { alike with storageRoot := rfl, value := ?_ }⟩
      intro key _
      rw [Account.value_cleared, Account.value_cleared]
  | storage slot value =>
      obtain rfl := Option.some.inj undone
      refine ⟨_, rfl, { alike with value := ?_ }⟩
      intro key free
      rw [Account.value_setStorage, Account.value_setStorage]
      by_cases same : key = slot
      · simp [same]
      · rw [if_neg same, if_neg same]
        apply alike.value
        simpa [keys, same] using free

end ChangeKind

/-! ## The invariant of an account's entries -/

/-- The account is what the trie holds, `stored`, as far as can be seen. -/
def AgreesStored (db : OverlayDB) (stored : Option Account)
    (account : Account) : Prop :=
  ∃ original, stored = some original ∧ account.Alike db original

/-- An opening entry is the oldest one. -/
def Rooted : List ChangeKind → Prop
  | [] => True
  | kind :: kinds => (kind.opens → kinds = []) ∧ Rooted kinds

/-- Every slot without an entry has the value of the base trie. -/
def Covered (db : OverlayDB) (kinds : List ChangeKind) (account : Account) :
    Prop :=
  ∀ key, key ∉ ChangeKind.keys kinds →
    account.value db key = db.slot account.storageRoot key

/-- Undoing the entries leads back to the stored account. -/
def Restores (db : OverlayDB) (stored : Option Account) :
    List ChangeKind → Account → Prop
  | [], account => AgreesStored db stored account
  | kind :: kinds, account =>
      Covered db (kind :: kinds) account ∧
        ∀ account', kind.undo account = some account' →
          Restores db stored kinds account'

structure SoundLog (db : OverlayDB) (stored : Option Account)
    (kinds : List ChangeKind) (account : Account) : Prop where
  rooted : Rooted kinds
  dirty : kinds ≠ [] → account.isUnchanged = false
  clean : account.isUnchanged = true → AgreesStored db stored account
  restores : account.isAlive = true → kinds.getLast? = some .touch →
    Restores db stored kinds account
  fresh : kinds.getLast? = some .create → stored = none

/-- The same for an entry of the cache. -/
def SoundEntry (db : OverlayDB) (stored : Option Account)
    (kinds : List ChangeKind) : Option Account → Prop
  | none => kinds = []
  | some account => SoundLog db stored kinds account

section

variable {db : OverlayDB} {stored : Option Account}
  {kinds : List ChangeKind} {kind : ChangeKind} {account account' : Account}

theorem AgreesStored.congr (agrees : AgreesStored db stored account)
    (alike : account.Alike db account') : AgreesStored db stored account' := by
  obtain ⟨original, found, same⟩ := agrees
  exact ⟨original, found, alike.symm.trans same⟩

theorem Covered.congr (covered : Covered db kinds account)
    (alike : Account.AlikeOff db (ChangeKind.keys kinds) account account') :
    Covered db kinds account' := by
  intro key free
  rw [← alike.value key free, covered key free, alike.storageRoot]

theorem Restores.congr (restores : Restores db stored kinds account)
    (alike : Account.AlikeOff db (ChangeKind.keys kinds) account account') :
    Restores db stored kinds account' := by
  induction kinds generalizing account account' with
  | nil => exact AgreesStored.congr restores alike
  | cons kind kinds induction =>
      obtain ⟨covered, later⟩ := restores
      refine ⟨covered.congr alike, ?_⟩
      intro undone' ran'
      obtain ⟨undone, ran, alike'⟩ :=
        ChangeKind.undo_alikeOff alike.symm ran'
      exact induction (later undone ran) alike'.symm

theorem Restores.covered (restores : Restores db stored kinds account)
    (nonempty : kinds ≠ []) : Covered db kinds account := by
  cases kinds with
  | nil => exact absurd rfl nonempty
  | cons kind kinds => exact restores.1

omit [Hashing] in
theorem Rooted.cons (rooted : Rooted kinds) (plain : kind.opens = false) :
    Rooted (kind :: kinds) :=
  ⟨fun opens => by simp [plain] at opens, rooted⟩

/-- A change that cannot be observed and keeps both marks. -/
theorem SoundLog.congr (sound : SoundLog db stored kinds account)
    (alike : account.Alike db account')
    (unchanged : account.isUnchanged = account'.isUnchanged) :
    SoundLog db stored kinds account' where
  rooted := sound.rooted
  dirty nonempty := by
    rw [← unchanged]
    exact sound.dirty nonempty
  clean untouched := (sound.clean (by rw [unchanged, untouched])).congr alike
  restores alive last :=
    (sound.restores (by rw [alike.isAlive, alive]) last).congr
      (alike.mono (by simp))
  fresh := sound.fresh

theorem SoundLog.log_eq_nil (sound : SoundLog db stored kinds account)
    (untouched : account.isUnchanged = true) : kinds = [] := by
  by_contra nonempty
  rw [sound.dirty nonempty] at untouched
  exact Bool.noConfusion untouched

/-- Undoing the newest entry.  A touched account must not have been killed
since. -/
theorem SoundLog.undo (sound : SoundLog db stored (kind :: kinds) account)
    (lives : kind = .touch → account.isAlive = true) :
    SoundEntry db stored kinds (kind.undo account) := by
  have dirty := sound.dirty (by simp)
  obtain ⟨opening, rooted⟩ := sound.rooted
  by_cases touch : kind = .touch
  · subst touch
    have oldest : kinds = [] := opening rfl
    subst oldest
    have restored := sound.restores (lives rfl) rfl
    have agrees : AgreesStored db stored account.untouch :=
      restored.2 account.untouch rfl
    refine ⟨trivial, by simp, fun _ => agrees, by simp, by simp⟩
  · cases undone : kind.undo account with
    | none =>
        have create : kind = .create := by
          cases kind <;> simp_all [ChangeKind.undo]
        exact opening (by simp [create, ChangeKind.opens])
    | some account' =>
        have marks : account'.isUnchanged = false ∧
            account'.isAlive = account.isAlive := by
          cases kind <;> simp [ChangeKind.undo] at undone <;>
            subst undone <;> simp_all [Account.setStorage,
              Account.setStorageRoot, Account.addBalance, Account.setNonce,
              Account.setCode, Account.changed]
        have last : ∀ oldest, kinds.getLast? = some oldest →
            (kind :: kinds).getLast? = some oldest := by
          intro oldest found
          simp [List.getLast?_cons, found]
        refine ⟨rooted, fun _ => marks.1, ?_, ?_, ?_⟩
        · intro untouched
          rw [marks.1] at untouched
          exact Bool.noConfusion untouched
        · intro alive found
          rw [marks.2] at alive
          exact (sound.restores alive (last _ found)).2 account' undone
        · intro found
          exact sound.fresh (last _ found)

/-! ## Changes of an account -/

theorem alike_changed (account : Account) :
    account.Alike db account.changed :=
  ⟨rfl, rfl, rfl, rfl, rfl, rfl, fun _ _ => rfl⟩

/-- Marking the account without an entry. -/
theorem SoundLog.changed (sound : SoundLog db stored kinds account) :
    SoundLog db stored kinds account.changed where
  rooted := sound.rooted
  dirty _ := rfl
  clean untouched := Bool.noConfusion untouched
  restores alive last :=
    (sound.restores alive last).congr
      ((alike_changed account).mono (by simp))
  fresh := sound.fresh

theorem AgreesStored.covered (agrees : AgreesStored db stored account)
    (loaded : ∀ original, stored = some original →
      original.storageOverlay = ∅) (kinds : List ChangeKind) :
    Covered db kinds account := by
  obtain ⟨original, found, alike⟩ := agrees
  intro key _
  have overlay := loaded original found
  rw [alike.value key (by simp), alike.storageRoot]
  simp [Account.value, overlay]

/-- The first touch of an empty account that is not dirty yet. -/
theorem SoundLog.touch (sound : SoundLog db stored kinds account)
    (untouched : account.isUnchanged = true)
    (loaded : ∀ original, stored = some original →
      original.storageOverlay = ∅) :
    SoundLog db stored (.touch :: kinds) account.changed := by
  have empty := sound.log_eq_nil untouched
  have agrees := (sound.clean untouched).congr (alike_changed account)
  subst empty
  refine ⟨⟨fun _ => rfl, trivial⟩, fun _ => rfl,
    fun untouched => Bool.noConfusion untouched, ?_, by simp⟩
  intro _ _
  refine ⟨agrees.covered loaded _, ?_⟩
  intro undone ran
  obtain rfl := Option.some.inj ran
  exact agrees.congr ⟨rfl, rfl, rfl, rfl, rfl, rfl, fun _ _ => rfl⟩

/-- A change with its entry. -/
theorem SoundLog.push {undone : Account}
    (sound : SoundLog db stored kinds account)
    (plain : kind.opens = false) (dirty : account'.isUnchanged = false)
    (alive : account'.isAlive = account.isAlive)
    (undoes : kind.undo account' = some undone)
    (alike : Covered db kinds account →
      Account.AlikeOff db (ChangeKind.keys kinds) account undone)
    (covered : Covered db kinds account →
      Covered db (kind :: kinds) account') :
    SoundLog db stored (kind :: kinds) account' := by
  have last : ∀ oldest, (kind :: kinds).getLast? = some oldest →
      oldest.opens = true → kinds.getLast? = some oldest := by
    intro oldest found opens
    cases kinds with
    | nil =>
        obtain rfl : kind = oldest := by simpa using found
        rw [plain] at opens
        exact Bool.noConfusion opens
    | cons next rest => simpa [List.getLast?_cons] using found
  refine ⟨sound.rooted.cons plain, fun _ => dirty, ?_, ?_, ?_⟩
  · intro untouched
    rw [dirty] at untouched
    exact Bool.noConfusion untouched
  · intro lives found
    have inner := last _ found rfl
    have nonempty : kinds ≠ [] := by
      intro empty
      simp [empty] at inner
    have restores := sound.restores (alive ▸ lives) inner
    have before := restores.covered nonempty
    refine ⟨covered before, ?_⟩
    intro result ran
    obtain rfl : undone = result := Option.some.inj (undoes.symm.trans ran)
    exact restores.congr (alike before)
  · intro found
    exact sound.fresh (last _ found rfl)

theorem SoundLog.addBalance (sound : SoundLog db stored kinds account)
    (amount : U256) :
    SoundLog db stored (.balance amount :: kinds)
      (account.addBalance amount) := by
  refine sound.push rfl rfl rfl rfl ?_ id
  intro _
  refine ⟨rfl, rfl, ?_, rfl, rfl, rfl, fun _ _ => rfl⟩
  simp [Account.addBalance, Account.changed]

theorem SoundLog.setNonce (sound : SoundLog db stored kinds account)
    (nonce : U256) :
    SoundLog db stored (.nonce account.nonce :: kinds)
      (account.setNonce nonce) :=
  sound.push rfl rfl rfl rfl
    (fun _ => ⟨rfl, rfl, rfl, rfl, rfl, rfl, fun _ _ => rfl⟩) id

theorem SoundLog.setStorage (sound : SoundLog db stored kinds account)
    (key value : U256) :
    SoundLog db stored (.storage key (account.value db key) :: kinds)
      (account.setStorage key value) := by
  refine sound.push rfl rfl rfl rfl ?_ ?_
  · intro _
    refine ⟨rfl, rfl, rfl, rfl, rfl, rfl, ?_⟩
    intro other _
    rw [Account.value_setStorage, Account.value_setStorage]
    by_cases same : other = key
    · simp [same]
    · rw [if_neg same, if_neg same]
  · intro covered other free
    have different : other ≠ key := by
      intro same
      simp [ChangeKind.keys, same] at free
    rw [Account.value_setStorage, if_neg different]
    apply covered
    intro member
    apply free
    simp only [ChangeKind.keys, List.filterMap_cons] at member ⊢
    exact List.mem_cons_of_mem _ member

theorem SoundLog.clearStorage (sound : SoundLog db stored kinds account) :
    SoundLog db stored (.storageRoot account.storageRoot :: kinds)
      account.clearStorage := by
  refine sound.push rfl rfl rfl rfl ?_ ?_
  · intro covered
    refine ⟨rfl, rfl, rfl, rfl, rfl, rfl, ?_⟩
    intro key free
    rw [Account.value_cleared]
    exact covered key free
  · intro _ key _
    simp [Account.value, Account.clearStorage, Account.changed]

/-- Only a dirty account keeps the invariant: `Account::setCode` does not
mark it. -/
theorem SoundLog.setCode (sound : SoundLog db stored kinds account)
    (dirty : account.isUnchanged = false) {old : Bytes} (code : Bytes)
    (hash : sha3 old = account.codeHash)
    (same : old = account.codeOf db) :
    SoundLog db stored (.code old :: kinds) (account.setCode code) := by
  refine sound.push rfl dirty rfl rfl ?_ id
  intro _
  refine ⟨rfl, rfl, rfl, hash.symm, ?_, rfl, fun _ _ => rfl⟩
  rw [Account.codeOf_setCode, ← same, hash]
  by_cases empty : account.codeHash = emptySHA3
  · simp [same, Account.codeOf, empty]
  · rw [if_neg empty]
    cases old with
    | nil =>
        rw [← hash] at empty
        exact absurd rfl empty
    | cons byte rest => rfl

theorem SoundLog.kill (sound : SoundLog db stored kinds account) :
    SoundLog db stored kinds account.kill where
  rooted := sound.rooted
  dirty _ := rfl
  clean untouched := Bool.noConfusion untouched
  restores alive _ := Bool.noConfusion alive
  fresh := sound.fresh

theorem sound_created (absent : stored = none) (nonce balance : U256) :
    SoundLog db stored [.create] (.created nonce balance) :=
  ⟨⟨fun _ => rfl, trivial⟩, fun _ => rfl, fun untouched =>
    Bool.noConfusion untouched, by simp, fun _ => absent⟩

theorem sound_dead : SoundLog db stored [] .dead :=
  ⟨trivial, by simp, fun untouched => Bool.noConfusion untouched, by simp,
    by simp⟩

end

end Aecmio
