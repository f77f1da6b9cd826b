import Mathlib.Data.List.AList
import Aecmio.Bytes

/-!
# The in-memory node store

`MemoryDB` keeps every string it was ever given under its hash, with a
reference count.  `kill` lowers the count and never removes the entry.  The
auxiliary strings stand in a map of their own, with a mark whether they are
live.
-/

namespace Aecmio

structure MemoryDB where
  main : AList (fun _ : H256 => Bytes × Nat) := ∅
  enforceRefs : Bool := false
  aux : AList (fun _ : H256 => Bytes × Bool) := ∅

namespace MemoryDB

def lookup (db : MemoryDB) (hash : H256) : Bytes :=
  match db.main.lookup hash with
  | some (value, references) =>
      if !db.enforceRefs || 0 < references then value else []
  | none => []

def exists_ (db : MemoryDB) (hash : H256) : Bool :=
  match db.main.lookup hash with
  | some (_, references) => !db.enforceRefs || 0 < references
  | none => false

def insert (db : MemoryDB) (hash : H256) (value : Bytes) : MemoryDB :=
  match db.main.lookup hash with
  | some (_, references) =>
      { db with main := db.main.insert hash (value, references + 1) }
  | none => { db with main := db.main.insert hash (value, 1) }

def kill (db : MemoryDB) (hash : H256) : MemoryDB × Bool :=
  match db.main.lookup hash with
  | some (value, references) =>
      if 0 < references then
        ({ db with main := db.main.insert hash (value, references - 1) }, true)
      else (db, false)
  | none => (db, false)

def lookupAux (db : MemoryDB) (hash : H256) : Bytes :=
  match db.aux.lookup hash with
  | some (value, live) => if !db.enforceRefs || live then value else []
  | none => []

def insertAux (db : MemoryDB) (hash : H256) (value : Bytes) : MemoryDB :=
  { db with aux := db.aux.insert hash (value, true) }

/-- The hashes with a positive count. -/
def keys (db : MemoryDB) : List H256 :=
  db.main.keys.filter fun hash =>
    match db.main.lookup hash with
    | some (_, references) => references ≠ 0
    | none => false

/-- The reference count of a hash, zero for one that was never inserted. -/
def count (db : MemoryDB) (hash : H256) : Nat :=
  match db.main.lookup hash with
  | some (_, references) => references
  | none => 0

/-- The string under a hash, whatever its count. -/
def content (db : MemoryDB) (hash : H256) : Option Bytes :=
  (db.main.lookup hash).map Prod.fst

/-! ## Counts and contents -/

variable {db : MemoryDB} {hash other : H256} {value : Bytes}

theorem lookup_eq_content (plain : db.enforceRefs = false) (hash : H256) :
    db.lookup hash = (db.content hash).getD [] := by
  unfold lookup content
  cases db.main.lookup hash with
  | none => rfl
  | some entry => simp [plain]

theorem content_insert :
    (db.insert hash value).content other =
      if other = hash then some value else db.content other := by
  unfold insert content
  by_cases same : other = hash
  · subst same
    cases db.main.lookup other <;> simp
  · cases db.main.lookup hash <;> simp [same, AList.lookup_insert_ne]

theorem count_insert :
    (db.insert hash value).count other =
      if other = hash then db.count hash + 1 else db.count other := by
  unfold insert count
  by_cases same : other = hash
  · subst same
    cases found : db.main.lookup other <;> simp
  · cases db.main.lookup hash <;> simp [same, AList.lookup_insert_ne]

@[simp] theorem enforceRefs_insert :
    (db.insert hash value).enforceRefs = db.enforceRefs := by
  unfold insert
  cases db.main.lookup hash <;> rfl

theorem content_kill : (db.kill hash).1.content other = db.content other := by
  unfold kill content
  cases found : db.main.lookup hash with
  | none => rfl
  | some entry =>
      obtain ⟨value, references⟩ := entry
      by_cases positive : 0 < references
      · by_cases same : other = hash
        · subst same
          simp [positive, found]
        · simp [positive, same, AList.lookup_insert_ne]
      · simp [positive]

theorem count_kill :
    (db.kill hash).1.count other =
      if other = hash then db.count hash - 1 else db.count other := by
  unfold kill count
  cases found : db.main.lookup hash with
  | none =>
      by_cases same : other = hash
      · subst same
        simp [found]
      · simp [same]
  | some entry =>
      obtain ⟨value, references⟩ := entry
      by_cases positive : 0 < references
      · by_cases same : other = hash
        · subst same
          simp [positive]
        · simp [positive, same, AList.lookup_insert_ne]
      · have zero : references = 0 := by omega
        by_cases same : other = hash
        · subst same
          simp [zero, found]
        · simp [positive, same]

@[simp] theorem enforceRefs_kill :
    (db.kill hash).1.enforceRefs = db.enforceRefs := by
  unfold kill
  cases db.main.lookup hash with
  | none => rfl
  | some entry =>
      simp only
      split <;> rfl

theorem mem_keys : hash ∈ db.keys ↔ 0 < db.count hash := by
  unfold keys count
  cases found : db.main.lookup hash with
  | none => simp [found]
  | some entry =>
      have member : hash ∈ db.main.keys := by
        rw [← AList.mem_keys, ← AList.lookup_isSome, found]
        rfl
      simp [found, member, Nat.pos_iff_ne_zero]

end MemoryDB

end Aecmio
