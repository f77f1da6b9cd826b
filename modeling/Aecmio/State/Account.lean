import Mathlib.Data.List.AList
import Aecmio.State.Database

/-!
# Accounts and the change log

An `Account` caches what the state trie holds for an address together with
the changes made since.  Only some of its methods mark it as changed; the
flag is what eviction and commit go by.
-/

namespace Aecmio

structure Account where
  isAlive : Bool
  isUnchanged : Bool
  hasNewCode : Bool
  nonce : U256
  balance : U256
  storageRoot : H256
  codeHash : H256
  storageOverlay : AList (fun _ : U256 => U256)
  codeCache : Bytes
deriving DecidableEq

namespace Account

variable [Hashing]

/-- The default constructor: a dead account. -/
def dead : Account where
  isAlive := false
  isUnchanged := false
  hasNewCode := false
  nonce := 0
  balance := 0
  storageRoot := emptyTrieRoot
  codeHash := emptySHA3
  storageOverlay := ∅
  codeCache := []

/-- `Account(nonce, balance)`, alive and changed. -/
def created (nonce balance : U256) : Account :=
  { dead with isAlive := true, nonce, balance }

/-- The account as it is stored, alive and unchanged. -/
def stored (fields : AccountFields) : Account :=
  { dead with
    isAlive := true
    isUnchanged := true
    nonce := fields.nonce
    balance := fields.balance
    storageRoot := fields.storageRoot
    codeHash := fields.codeHash }

def changed (account : Account) : Account :=
  { account with isUnchanged := false }

def kill (account : Account) : Account :=
  changed { account with
    isAlive := false
    storageOverlay := ∅
    codeHash := emptySHA3
    storageRoot := emptyTrieRoot
    balance := 0
    nonce := 0 }

def isDirty (account : Account) : Bool := !account.isUnchanged

def untouch (account : Account) : Account :=
  { account with isUnchanged := true }

def isEmpty (account : Account) : Bool :=
  account.nonce == 0 && account.balance == 0 && account.codeHash == emptySHA3

def addBalance (value : U256) (account : Account) : Account :=
  changed { account with balance := account.balance + value }

def incNonce (account : Account) : Account :=
  changed { account with nonce := account.nonce + 1 }

def setNonce (nonce : U256) (account : Account) : Account :=
  changed { account with nonce }

def setStorage (key value : U256) (account : Account) : Account :=
  changed { account with
    storageOverlay := account.storageOverlay.insert key value }

def clearStorage (account : Account) : Account :=
  changed { account with storageOverlay := ∅, storageRoot := emptyTrieRoot }

def setStorageRoot (root : H256) (account : Account) : Account :=
  changed { account with storageOverlay := ∅, storageRoot := root }

def setStorageCache (key value : U256) (account : Account) : Account :=
  { account with storageOverlay := account.storageOverlay.insert key value }

/-- The account is not marked as changed here. -/
def setCode (code : Bytes) (account : Account) : Account :=
  { account with codeCache := code, hasNewCode := true, codeHash := sha3 code }

def noteCode (code : Bytes) (account : Account) : Account :=
  { account with codeCache := code }

end Account

/-- `Change::Kind` with the values that the kind records. -/
inductive ChangeKind where
  | balance (value : U256)
  | storage (key value : U256)
  | storageRoot (root : H256)
  | nonce (value : U256)
  | create
  | code (oldCode : Bytes)
  | touch
deriving DecidableEq

structure Change where
  address : Address
  kind : ChangeKind
deriving DecidableEq

/-- One round of `rollback` on the account of the change; `none` when the
account is erased from the cache. -/
def ChangeKind.undo [Hashing] (kind : ChangeKind) (account : Account) :
    Option Account :=
  match kind with
  | .storage key value => some (account.setStorage key value)
  | .storageRoot root => some (account.setStorageRoot root)
  | .balance value => some (account.addBalance (0 - value))
  | .nonce value => some (account.setNonce value)
  | .create => none
  | .code oldCode => some (account.setCode oldCode)
  | .touch => some account.untouch

end Aecmio
