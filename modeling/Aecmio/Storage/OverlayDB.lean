import Aecmio.Trie.MemoryDB

/-!
# The overlay over the state database

`OverlayDB` collects nodes and auxiliary strings in memory until a commit
writes them to the database in one batch.  A lookup that finds nothing in
memory goes to the database.
-/

namespace Aecmio

namespace Storage

/-! ## The database -/

/-- What a database holds. -/
abbrev Database := Bytes → Option Bytes

/-- The insertions of a `WriteBatchFace`, the first one first. -/
abbrev WriteBatch := List (Bytes × Bytes)

inductive DatabaseError where
  | nullBatch
  | writeFailed
deriving DecidableEq, Repr

namespace Database

def lookup (db : Database) (key : Bytes) : Bytes := (db key).getD []

def exists_ (db : Database) (key : Bytes) : Bool := (db key).isSome

def insert (db : Database) (entry : Bytes × Bytes) : Database :=
  Function.update db entry.1 (some entry.2)

def write (db : Database) (batch : WriteBatch) : Database :=
  batch.foldl insert db

/-- `LevelDB::commit`; the batch is `none` for a null pointer, and `failing`
says whether the write fails. -/
def commit (db : Database) (batch : Option WriteBatch) (failing : Bool) :
    Except DatabaseError Database :=
  match batch with
  | none => .error .nullBatch
  | some batch =>
      if failing then .error .writeFailed else .ok (db.write batch)

end Database

/-! ## The overlay -/

structure OverlayDB extends MemoryDB where
  db : Option Database := none

/-- The key of an auxiliary string. -/
def auxKey (hash : H256) : Bytes := hash.val ++ [255]

namespace OverlayDB

/-- The batch of a commit. -/
def writeBatch (overlay : OverlayDB) : WriteBatch :=
  (overlay.main.entries.filterMap fun entry =>
    if entry.2.2 ≠ 0 then some (entry.1.val, entry.2.1) else none) ++
  overlay.aux.entries.filterMap fun entry =>
    if entry.2.2 then some (auxKey entry.1, entry.2.1) else none

/-- The loop of a commit.  The batch is moved into the first attempt, so the
next ones have a null pointer; after the last one the process exits, which is
`none`. -/
def submit (failing : Nat → Bool) (db : Database) :
    Nat → Nat → Option WriteBatch → Option Database
  | 0, _, _ => none
  | attempts + 1, attempt, batch =>
      match db.commit batch (failing attempt) with
      | .ok db => some db
      | .error _ => submit failing db attempts (attempt + 1) none

/-- `OverlayDB::commit`; `failing` says which attempts to write fail. -/
def commit (overlay : OverlayDB) (failing : Nat → Bool) : Option OverlayDB :=
  match overlay.db with
  | none => some overlay
  | some db =>
      (submit failing db 10 0 (some overlay.writeBatch)).map fun db =>
        { overlay with
          aux := ∅
          main := ∅
          db := some db }

def lookupAux (overlay : OverlayDB) (hash : H256) : Bytes :=
  let ret := overlay.toMemoryDB.lookupAux hash
  if ret ≠ [] then ret
  else match overlay.db with
    | none => ret
    | some db => db.lookup (auxKey hash)

def rollback (overlay : OverlayDB) : OverlayDB := { overlay with main := ∅ }

def lookup (overlay : OverlayDB) (hash : H256) : Bytes :=
  let ret := overlay.toMemoryDB.lookup hash
  if ret ≠ [] then ret
  else match overlay.db with
    | none => ret
    | some db => db.lookup hash.val

def exists_ (overlay : OverlayDB) (hash : H256) : Bool :=
  overlay.toMemoryDB.exists_ hash ||
    match overlay.db with
    | none => false
    | some db => db.exists_ hash.val

/-- `OverlayDB::kill`, which only logs what `MemoryDB::kill` says. -/
def kill (overlay : OverlayDB) (hash : H256) : OverlayDB :=
  { overlay with toMemoryDB := (overlay.toMemoryDB.kill hash).1 }

/-- `MemoryDB::insert`. -/
def insert (overlay : OverlayDB) (hash : H256) (value : Bytes) : OverlayDB :=
  { overlay with toMemoryDB := overlay.toMemoryDB.insert hash value }

/-- `MemoryDB::insertAux`. -/
def insertAux (overlay : OverlayDB) (hash : H256) (value : Bytes) :
    OverlayDB :=
  { overlay with toMemoryDB := overlay.toMemoryDB.insertAux hash value }

end OverlayDB

/-- A change of the overlay. -/
inductive Change where
  | insert (hash : H256) (value : Bytes)
  | kill (hash : H256)
  | insertAux (hash : H256) (value : Bytes)

namespace Change

def isAux : Change → Bool
  | insertAux _ _ => true
  | _ => false

def apply (overlay : OverlayDB) : Change → OverlayDB
  | insert hash value => overlay.insert hash value
  | kill hash => overlay.kill hash
  | insertAux hash value => overlay.insertAux hash value

end Change

def OverlayDB.run (overlay : OverlayDB) (changes : List Change) : OverlayDB :=
  changes.foldl Change.apply overlay

/-! ## Batches -/

section Batches

variable {db : Database} {batch : WriteBatch} {key value : Bytes}

theorem Database.write_of_notMem
    (absent : ∀ value, (key, value) ∉ batch) : db.write batch key = db key := by
  induction batch generalizing db with
  | nil => rfl
  | cons entry rest induction =>
      have other : key ≠ entry.1 := by
        intro same
        exact absent entry.2 (by rw [same]; exact List.mem_cons_self)
      have below := @induction (db.insert entry) fun value member =>
        absent value (List.mem_cons_of_mem _ member)
      rw [Database.write, List.foldl_cons]
      exact below.trans (Function.update_of_ne other _ _)

theorem Database.write_of_mem (member : (key, value) ∈ batch)
    (unique : ∀ other, (key, other) ∈ batch → other = value) :
    db.write batch key = some value := by
  have general : ∀ (db : Database), db key = some value ∨
      (key, value) ∈ batch → db.write batch key = some value := by
    clear member
    induction batch with
    | nil =>
        intro db held
        exact held.resolve_right List.not_mem_nil
    | cons entry rest induction =>
        intro db held
        refine induction (fun other inside =>
          unique other (List.mem_cons_of_mem _ inside)) (db.insert entry) ?_
        by_cases same : entry.1 = key
        · have last : entry.2 = value := by
            apply unique
            rw [← same]
            exact List.mem_cons_self
          left
          rw [Database.insert, same, Function.update_self, last]
        · rcases held with held | inside
          · left
            rw [Database.insert, Function.update_of_ne (Ne.symm same)]
            exact held
          · right
            rcases List.mem_cons.mp inside with here | inside
            · exact absurd (congrArg Prod.fst here).symm same
            · exact inside
  exact general db (.inr member)

end Batches

namespace OverlayDB

variable {overlay : OverlayDB} {hash : H256} {value : Bytes}

theorem auxKey_injective {first second : H256}
    (same : auxKey first = auxKey second) : first = second :=
  Subtype.ext (List.append_cancel_right same)

theorem auxKey_ne (first second : H256) : auxKey first ≠ second.val := by
  intro same
  have lengths := congrArg List.length same
  rw [auxKey, List.length_append, first.property, second.property] at lengths
  cases lengths

/-- What a commit writes under the hash of a node. -/
theorem mem_writeBatch_node : (hash.val, value) ∈ overlay.writeBatch ↔
    ∃ references, overlay.main.lookup hash = some (value, references) ∧
      references ≠ 0 := by
  simp only [writeBatch, List.mem_append, List.mem_filterMap]
  constructor
  · rintro (⟨entry, member, chosen⟩ | ⟨entry, member, chosen⟩)
    · split at chosen
      · next live =>
          cases entry with
          | mk first pair =>
              simp only [Option.some.injEq, Prod.mk.injEq] at chosen
              obtain ⟨same, rfl⟩ := chosen
              obtain rfl := Subtype.ext same
              exact ⟨pair.2, AList.mem_lookup_iff.mpr member, live⟩
      · cases chosen
    · split at chosen
      · simp only [Option.some.injEq, Prod.mk.injEq] at chosen
        exact absurd chosen.1 (auxKey_ne _ _)
      · cases chosen
  · intro found
    obtain ⟨references, found, live⟩ := found
    left
    refine ⟨⟨hash, value, references⟩, AList.mem_lookup_iff.mp found, ?_⟩
    rw [if_pos live]

/-- What a commit writes under the key of an auxiliary string. -/
theorem mem_writeBatch_aux : (auxKey hash, value) ∈ overlay.writeBatch ↔
    overlay.aux.lookup hash = some (value, true) := by
  simp only [writeBatch, List.mem_append, List.mem_filterMap]
  constructor
  · rintro (⟨entry, member, chosen⟩ | ⟨entry, member, chosen⟩)
    · split at chosen
      · simp only [Option.some.injEq, Prod.mk.injEq] at chosen
        exact absurd chosen.1.symm (auxKey_ne _ _)
      · cases chosen
    · split at chosen
      · next live =>
          obtain ⟨first, text, mark⟩ := entry
          simp only [Option.some.injEq, Prod.mk.injEq] at chosen live
          obtain ⟨same, rfl⟩ := chosen
          obtain rfl := auxKey_injective same
          rw [live] at member
          exact AList.mem_lookup_iff.mpr member
      · cases chosen
  · intro found
    right
    refine ⟨⟨hash, value, true⟩, AList.mem_lookup_iff.mp found, ?_⟩
    rw [if_pos rfl]

theorem write_node (db : Database) (hash : H256) :
    db.write overlay.writeBatch hash.val =
      match overlay.main.lookup hash with
      | some (value, references) =>
          if references ≠ 0 then some value else db hash.val
      | none => db hash.val := by
  cases found : overlay.main.lookup hash with
  | none =>
      refine Database.write_of_notMem fun value member => ?_
      obtain ⟨references, present, -⟩ := mem_writeBatch_node.mp member
      rw [found] at present
      cases present
  | some entry =>
      obtain ⟨value, references⟩ := entry
      dsimp only
      by_cases live : references ≠ 0
      · rw [if_pos live]
        refine Database.write_of_mem
          (mem_writeBatch_node.mpr ⟨references, found, live⟩) ?_
        intro other member
        obtain ⟨_, present, -⟩ := mem_writeBatch_node.mp member
        rw [found] at present
        cases present
        rfl
      · rw [if_neg live]
        refine Database.write_of_notMem fun other member => ?_
        obtain ⟨_, present, positive⟩ := mem_writeBatch_node.mp member
        rw [found] at present
        cases present
        exact live positive

theorem write_aux (db : Database) (hash : H256) :
    db.write overlay.writeBatch (auxKey hash) =
      match overlay.aux.lookup hash with
      | some (value, true) => some value
      | _ => db (auxKey hash) := by
  split
  · next value found =>
      refine Database.write_of_mem (mem_writeBatch_aux.mpr found) ?_
      intro other member
      rw [mem_writeBatch_aux, found] at member
      cases member
      rfl
  · next dead =>
      refine Database.write_of_notMem fun value member => ?_
      exact dead value (mem_writeBatch_aux.mp member)

/-! ## Commits -/

/-- Without a batch every attempt fails. -/
theorem submit_none (failing : Nat → Bool) (db : Database)
    (attempts attempt : Nat) :
    submit failing db attempts attempt none = none := by
  induction attempts generalizing attempt with
  | zero => rfl
  | succ attempts induction => exact induction (attempt + 1)

theorem submit_eq (failing : Nat → Bool) (db : Database) (batch : WriteBatch) :
    submit failing db 10 0 (some batch) =
      if failing 0 then none else some (db.write batch) := by
  rw [submit, Database.commit]
  cases failing 0 with
  | false => rfl
  | true => exact submit_none failing db 9 1

/-- The overlay after the batch was written. -/
def written (memory : MemoryDB) (database : Database) : OverlayDB :=
  { memory with
    aux := ∅
    main := ∅
    db := some (database.write
      (writeBatch { memory with db := some database })) }

theorem commit_eq (memory : MemoryDB) (database : Database)
    (failing : Nat → Bool) :
    ({ memory with db := some database } : OverlayDB).commit failing =
      if failing 0 then none else some (written memory database) := by
  rw [commit]
  dsimp only
  rw [submit_eq]
  cases failing 0 <;> rfl

end OverlayDB

/-- The whole overlay is in the database and out of memory, and no lookup
changed. -/
structure Persisted (before after : OverlayDB) : Prop where
  nodes : ∀ hash value references,
    before.main.lookup hash = some (value, references) → 0 < references →
      ∃ db, after.db = some db ∧ db hash.val = some value
  auxes : ∀ hash value, before.aux.lookup hash = some (value, true) →
    ∃ db, after.db = some db ∧ db (auxKey hash) = some value
  mainCleared : after.main = ∅
  auxCleared : after.aux = ∅
  lookup : ∀ hash, after.lookup hash = before.lookup hash
  lookupAux : ∀ hash, after.lookupAux hash = before.lookupAux hash

/-- The database has the same string for every node in memory, as far as it
is looked up there, or is given it. -/
def NodesAgree (memory : MemoryDB) (database : Database) : Prop :=
  ∀ hash value references,
    memory.main.lookup hash = some (value, references) →
      if references ≠ 0 then value ≠ [] ∨ database.lookup hash.val = []
      else memory.enforceRefs ∨ value = [] ∨ database.lookup hash.val = value

/-- The same for the auxiliary strings. -/
def AuxesAgree (memory : MemoryDB) (database : Database) : Prop :=
  ∀ hash value live, memory.aux.lookup hash = some (value, live) →
    if live then value ≠ [] ∨ database.lookup (auxKey hash) = []
    else memory.enforceRefs ∨ value = [] ∨
      database.lookup (auxKey hash) = value

namespace OverlayDB

variable {memory : MemoryDB} {database : Database}

theorem lookup_written (hash : H256) :
    (written memory database).lookup hash =
      match memory.main.lookup hash with
      | some (value, references) =>
          if references ≠ 0 then value else database.lookup hash.val
      | none => database.lookup hash.val := by
  have stored := @write_node { memory with db := some database } database hash
  have here : (written memory database).lookup hash =
      (database.write (writeBatch { memory with db := some database })).lookup
        hash.val := rfl
  rw [here, Database.lookup, stored]
  cases memory.main.lookup hash with
  | none => rfl
  | some entry =>
      dsimp only
      split <;> rfl

theorem lookupAux_written (hash : H256) :
    (written memory database).lookupAux hash =
      match memory.aux.lookup hash with
      | some (value, true) => value
      | _ => database.lookup (auxKey hash) := by
  have stored := @write_aux { memory with db := some database } database hash
  have here : (written memory database).lookupAux hash =
      (database.write (writeBatch { memory with db := some database })).lookup
        (auxKey hash) := rfl
  rw [here, Database.lookup, stored]
  dsimp only
  split <;> rfl

/-- A lookup of a node is the same after the batch was written. -/
theorem lookup_same_iff (hash : H256) :
    (written memory database).lookup hash =
        OverlayDB.lookup { memory with db := some database } hash ↔
      ∀ value references,
        memory.main.lookup hash = some (value, references) →
          if references ≠ 0 then value ≠ [] ∨ database.lookup hash.val = []
          else memory.enforceRefs ∨ value = [] ∨
            database.lookup hash.val = value := by
  rw [lookup_written, lookup, MemoryDB.lookup]
  cases memory.main.lookup hash with
  | none => simp
  | some entry =>
      obtain ⟨value, references⟩ := entry
      simp only [Option.some.injEq, Prod.mk.injEq]
      by_cases live : references = 0
      · cases memory.enforceRefs <;> by_cases empty : value = [] <;>
          simp_all
      · have positive : 0 < references := Nat.pos_of_ne_zero live
        by_cases empty : value = []
        · have turn : [] = database.lookup hash.val ↔
              database.lookup hash.val = [] := eq_comm
          simp [live, empty, turn]
        · simp [live, empty, positive]

theorem lookupAux_same_iff (hash : H256) :
    (written memory database).lookupAux hash =
        OverlayDB.lookupAux { memory with db := some database } hash ↔
      ∀ value live, memory.aux.lookup hash = some (value, live) →
        if live then value ≠ [] ∨ database.lookup (auxKey hash) = []
        else memory.enforceRefs ∨ value = [] ∨
          database.lookup (auxKey hash) = value := by
  rw [lookupAux_written, lookupAux, MemoryDB.lookupAux]
  cases memory.aux.lookup hash with
  | none => simp
  | some entry =>
      obtain ⟨value, live⟩ := entry
      simp only [Option.some.injEq, Prod.mk.injEq]
      cases live with
      | false =>
          cases memory.enforceRefs <;> by_cases empty : value = [] <;>
            simp_all
      | true =>
          by_cases empty : value = []
          · have turn : [] = database.lookup (auxKey hash) ↔
                database.lookup (auxKey hash) = [] := eq_comm
            simp [empty, turn]
          · simp [empty]

theorem persisted_written_iff :
    Persisted { memory with db := some database }
        (written memory database) ↔
      NodesAgree memory database ∧ AuxesAgree memory database := by
  constructor
  · intro persisted
    refine ⟨fun hash => ?_, fun hash => ?_⟩
    · exact (lookup_same_iff hash).mp (persisted.lookup hash)
    · exact (lookupAux_same_iff hash).mp (persisted.lookupAux hash)
  · intro agree
    refine ⟨?_, ?_, rfl, rfl, fun hash => ?_, fun hash => ?_⟩
    · intro hash value references found positive
      refine ⟨_, rfl, ?_⟩
      rw [write_node, found]
      exact if_pos (Nat.ne_of_gt positive)
    · intro hash value found
      refine ⟨_, rfl, ?_⟩
      rw [write_aux, found]
    · exact (lookup_same_iff hash).mpr (agree.1 hash)
    · exact (lookupAux_same_iff hash).mpr (agree.2 hash)

/-- A commit persists the overlay when its first attempt succeeds and no
lookup relies on what the database is not given. -/
theorem commit_persists_iff (memory : MemoryDB) (database : Database)
    (failures : Nat) :
    (∃ after, ({ memory with db := some database } : OverlayDB).commit
        (fun attempt => attempt < failures) = some after ∧
      Persisted { memory with db := some database } after) ↔
      failures = 0 ∧ NodesAgree memory database ∧
        AuxesAgree memory database := by
  rw [commit_eq]
  by_cases first : failures = 0
  · have succeeds : ¬decide (0 < failures) = true := by simp [first]
    rw [if_neg succeeds]
    simp only [Option.some.injEq, exists_eq_left']
    rw [persisted_written_iff]
    exact ⟨fun agree => ⟨first, agree⟩, fun all => all.2⟩
  · have fails : decide (0 < failures) = true := by
      simp [Nat.pos_of_ne_zero first]
    rw [if_pos fails]
    constructor
    · rintro ⟨_, impossible, -⟩
      cases impossible
    · intro all
      exact absurd all.1 first

/-- One node in memory and an empty database. -/
def overlaySample : OverlayDB :=
  { main := (∅ : AList _).insert (hashOfNat 7) ([1], 1),
    db := some fun _ => none }

/-- The first attempt fails: the process exits. -/
theorem commit_retry_exits :
    ¬∃ after, overlaySample.commit (fun attempt => attempt < 1) =
      some after ∧ Persisted overlaySample after := by
  rintro ⟨after, returned, -⟩
  cases returned

/-! ## Rollbacks -/

variable {overlay : OverlayDB}

/-- What a change leaves alone. -/
theorem apply_db (change : Change) (overlay : OverlayDB) :
    (change.apply overlay).db = overlay.db ∧
      (change.apply overlay).enforceRefs = overlay.enforceRefs := by
  cases change with
  | insert hash value => exact ⟨rfl, MemoryDB.enforceRefs_insert⟩
  | kill hash => exact ⟨rfl, MemoryDB.enforceRefs_kill⟩
  | insertAux hash value => exact ⟨rfl, rfl⟩

theorem apply_aux (change : Change) (overlay : OverlayDB) :
    (change.apply overlay).aux =
      match change with
      | .insertAux hash value => overlay.aux.insert hash (value, true)
      | _ => overlay.aux := by
  cases change with
  | insert hash value =>
      simp only [Change.apply, insert, MemoryDB.insert]
      split <;> rfl
  | kill hash =>
      simp only [Change.apply, kill, MemoryDB.kill]
      split
      · split <;> rfl
      · rfl
  | insertAux hash value => rfl

theorem run_db (overlay : OverlayDB) (changes : List Change) :
    (overlay.run changes).db = overlay.db ∧
      (overlay.run changes).enforceRefs = overlay.enforceRefs := by
  induction changes generalizing overlay with
  | nil => exact ⟨rfl, rfl⟩
  | cons change rest induction =>
      obtain ⟨db, enforceRefs⟩ := apply_db change overlay
      obtain ⟨dbRest, enforceRefsRest⟩ := induction (change.apply overlay)
      exact ⟨dbRest.trans db, enforceRefsRest.trans enforceRefs⟩

theorem run_aux_of_none {changes : List Change}
    (none : ∀ change ∈ changes, change.isAux = false) :
    (overlay.run changes).aux = overlay.aux := by
  induction changes generalizing overlay with
  | nil => rfl
  | cons change rest induction =>
      have below := @induction (change.apply overlay) fun other member =>
        none other (List.mem_cons_of_mem _ member)
      have here := none change List.mem_cons_self
      refine below.trans ?_
      rw [apply_aux]
      cases change with
      | insertAux hash value => cases here
      | insert hash value => rfl
      | kill hash => rfl

/-- An auxiliary string that is live stays live. -/
theorem run_aux_live {hash : H256} {value : Bytes}
    (found : overlay.aux.lookup hash = some (value, true))
    (changes : List Change) :
    ∃ later, (overlay.run changes).aux.lookup hash = some (later, true) := by
  induction changes generalizing overlay value with
  | nil => exact ⟨value, found⟩
  | cons change rest induction =>
      have next : ∃ later,
          (change.apply overlay).aux.lookup hash = some (later, true) := by
        rw [apply_aux]
        cases change with
        | insert _ _ => exact ⟨value, found⟩
        | kill _ => exact ⟨value, found⟩
        | insertAux other text =>
            by_cases same : hash = other
            · subst same
              exact ⟨text, AList.lookup_insert _⟩
            · refine ⟨value, ?_⟩
              rw [← found]
              exact AList.lookup_insert_ne same
      obtain ⟨later, foundLater⟩ := next
      exact induction foundLater

theorem run_aux_of_some {changes : List Change} {change : Change}
    (member : change ∈ changes) (isAux : change.isAux) :
    ∃ hash value,
      (overlay.run changes).aux.lookup hash = some (value, true) := by
  induction changes generalizing overlay with
  | nil => cases member
  | cons first rest induction =>
      rcases List.mem_cons.mp member with rfl | member
      · cases change with
        | insert _ _ => cases isAux
        | kill _ => cases isAux
        | insertAux hash value =>
            have found : ((Change.insertAux hash value).apply
                overlay).aux.lookup hash = some (value, true) := by
              rw [apply_aux]
              exact AList.lookup_insert _
            obtain ⟨later, foundLater⟩ := run_aux_live found rest
            exact ⟨hash, later, foundLater⟩
      · exact induction member

/-- Lookups are as they were before the changes, and there is nothing to
write. -/
def Undone (committed : OverlayDB) (changes : List Change) : Prop :=
  (∀ hash,
    (committed.run changes).rollback.lookup hash = committed.lookup hash ∧
    (committed.run changes).rollback.exists_ hash = committed.exists_ hash ∧
    (committed.run changes).rollback.lookupAux hash =
      committed.lookupAux hash) ∧
  (committed.run changes).rollback.writeBatch = []

/-- A rollback brings the overlay back to its last commit when no auxiliary
string was inserted since. -/
theorem rollback_undoes_iff {before committed : OverlayDB}
    {failing : Nat → Bool} (backed : before.db.isSome)
    (returned : before.commit failing = some committed)
    (changes : List Change) :
    Undone committed changes ↔
      ∀ change ∈ changes, change.isAux = false := by
  obtain ⟨memory, database⟩ := before
  obtain ⟨database, rfl⟩ := Option.isSome_iff_exists.mp backed
  rw [commit_eq] at returned
  have result : committed = written memory database := by
    split at returned
    · cases returned
    · exact (Option.some.inj returned).symm
  have noMain : committed.main = ∅ := by rw [result]; rfl
  have noAux : committed.aux = ∅ := by rw [result]; rfl
  clear result returned
  constructor
  · intro undone change member
    by_contra isAux
    rw [Bool.not_eq_false] at isAux
    obtain ⟨hash, value, found⟩ :=
      @run_aux_of_some committed changes change member isAux
    have inBatch : (auxKey hash, value) ∈
        (committed.run changes).rollback.writeBatch :=
      mem_writeBatch_aux.mpr found
    rw [undone.2] at inBatch
    cases inBatch
  · intro none
    obtain ⟨db, enforceRefs⟩ := run_db committed changes
    have back : (committed.run changes).rollback = committed := by
      have aux := @run_aux_of_none committed changes none
      generalize committed.run changes = later at db enforceRefs aux
      obtain ⟨⟨laterMain, laterRefs, laterAux⟩, laterDb⟩ := later
      obtain ⟨⟨main, refs, auxes⟩, here⟩ := committed
      subst db enforceRefs aux noMain
      rfl
    rw [Undone, back]
    refine ⟨fun hash => ⟨rfl, rfl, rfl⟩, ?_⟩
    rw [writeBatch, noMain, noAux]
    rfl

theorem rollback_undoes_iff_sample :
    Undone { db := some fun _ => none }
        [.insert (hashOfNat 7) [1], .kill (hashOfNat 7)] ↔
      ∀ change ∈ [Change.insert (hashOfNat 7) [1], .kill (hashOfNat 7)],
        change.isAux = false :=
  @rollback_undoes_iff { db := some fun _ => none } _ (fun _ => false) rfl rfl
    [.insert (hashOfNat 7) [1], .kill (hashOfNat 7)]

/-- An auxiliary string inserted since the last commit is still there after
the rollback. -/
theorem rollback_keeps_aux :
    ¬∀ (before committed : OverlayDB) (failing : Nat → Bool)
      (changes : List Change), before.db.isSome →
        before.commit failing = some committed →
        Undone committed changes := by
  intro undoes
  have undone := undoes { db := some fun _ => none }
    { db := some fun _ => none } (fun _ => false)
    [.insertAux (hashOfNat 7) [1]] rfl rfl
  have same := (undone.1 (hashOfNat 7)).2.2
  revert same
  decide

end OverlayDB

end Storage

end Aecmio
