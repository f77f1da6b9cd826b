import Aecmio.Trie.Deleting
import Aecmio.Trie.HashSpec
import Aecmio.Trie.Merging

/-!
# The trie as a finite map

`Holding` relates an object to the map it stands for: its root is the hash of
the canonical trie of the map, and the nodes of that trie can be read.  Each
operation is given by what it does to the map.
-/

namespace Aecmio

set_option synthInstance.maxSize 1024

open Item TrieM Traced Node Patricia Patricia.Trie

/-- A key whose nibbles an `int` can count. -/
abbrev TrieKey := { key : Bytes // key.length < 2 ^ 30 }

variable (sha3 : Bytes → H256) (occurring : Set Bytes)

/-- The object holds the map, as the given trie. -/
structure Holding (trie : GenericTrieDB) (map : BytesMap) (node : Node) :
    Prop where
  sound : Sound sha3 occurring trie
  root : trie.root = sha3 (enc sha3 node)
  held : Holds sha3 trie (enc sha3 node)
  stored : Stored sha3 trie node
  null : Holds sha3 trie RLPNull
  canonical : node.Canonical
  agrees : Agrees map node
  bounded : ∀ key ∈ map, key.length < 2 ^ 30

/-- The reference counts are those of the trie, the root counting once. -/
def Counted (trie : GenericTrieDB) (node : Node) : Prop :=
  ∀ hash, trie.db.count hash = (refs sha3 node + {trie.root}).count hash

variable {sha3} {occurring} {trie : GenericTrieDB} {map : BytesMap}
  {node : Node}

/-! ## Maps and tries -/

namespace Agrees

theorem slotBytes_get (agrees : Agrees map node) (key : Bytes) :
    slotBytes (node.get (asNibbles key)) = (map.lookup key).getD [] := by
  cases found : node.get (asNibbles key) with
  | none =>
      cases entry : map.lookup key with
      | none => rfl
      | some bytes =>
          obtain ⟨value, held, _⟩ :=
            (agrees (asNibbles key) bytes).mpr ⟨key, rfl, entry⟩
          rw [found] at held
          cases held
  | some value =>
      obtain ⟨other, same, entry⟩ :=
        (agrees (asNibbles key) value.val).mp ⟨value, found, rfl⟩
      rw [asNibbles_injective same] at entry
      rw [entry]
      rfl

/-- The paths of the trie are keys of the map. -/
theorem exists_key (agrees : Agrees map node) {path : List Nibble}
    {value : TrieValue} (found : node.get path = some value) :
    ∃ key, path = asNibbles key ∧ map.lookup key = some value.val := by
  obtain ⟨key, same, entry⟩ := (agrees path value.val).mp ⟨value, found, rfl⟩
  exact ⟨key, same.symm, entry⟩

/-- A key is in the map when its nibbles are in the trie. -/
theorem get_eq_none_iff (agrees : Agrees map node) (key : Bytes) :
    node.get (asNibbles key) = none ↔ map.lookup key = none := by
  rw [← not_iff_not, ← ne_eq, ← ne_eq, Option.ne_none_iff_exists',
    Option.ne_none_iff_exists']
  constructor
  · rintro ⟨value, found⟩
    obtain ⟨other, same, entry⟩ := agrees.exists_key found
    rw [← asNibbles_injective same] at entry
    exact ⟨_, entry⟩
  · rintro ⟨bytes, entry⟩
    obtain ⟨value, found, _⟩ :=
      (agrees (asNibbles key) bytes).mpr ⟨key, rfl, entry⟩
    exact ⟨value, found⟩

theorem insert (agrees : Agrees map node) (key : Bytes) (value : TrieValue) :
    Agrees (map.insert key value.val) (node.insert (asNibbles key) value) := by
  intro path bytes
  rw [get_insert]
  by_cases same : asNibbles key = path
  · subst same
    simp only [if_true, Option.some.injEq]
    constructor
    · rintro ⟨_, rfl, rfl⟩
      exact ⟨key, rfl, AList.lookup_insert map⟩
    · rintro ⟨other, equal, entry⟩
      rw [asNibbles_injective equal, AList.lookup_insert] at entry
      exact ⟨value, rfl, Option.some.inj entry⟩
  · rw [if_neg same, agrees path bytes]
    refine exists_congr fun other => and_congr_right fun equal => ?_
    have different : other ≠ key := by
      rintro rfl
      exact same equal
    rw [AList.lookup_insert_ne different]

theorem erase (agrees : Agrees map node) {key : Bytes} {erased : Node}
    (result : node.erase (asNibbles key) = some erased) :
    Agrees (map.erase key) erased := by
  intro path bytes
  rw [get_erase result]
  by_cases same : asNibbles key = path
  · subst same
    simp only [if_true]
    constructor
    · rintro ⟨_, found, _⟩
      cases found
    · rintro ⟨other, equal, entry⟩
      rw [asNibbles_injective equal, AList.lookup_erase] at entry
      cases entry
  · rw [if_neg same, agrees path bytes]
    refine exists_congr fun other => and_congr_right fun equal => ?_
    have different : other ≠ key := by
      rintro rfl
      exact same equal
    rw [AList.lookup_erase_ne different]

/-- Erasing a key that is not there changes nothing. -/
theorem erase_absent (agrees : Agrees map node) {key : Bytes}
    (absent : map.lookup key = none) : Agrees (map.erase key) node := by
  intro path bytes
  rw [agrees path bytes]
  refine exists_congr fun other => and_congr_right fun _ => ?_
  by_cases same : other = key
  · rw [same, absent, AList.lookup_erase]
  · rw [AList.lookup_erase_ne same]

end Agrees

/-! ## Reading -/

namespace Holding

theorem bound (holding : Holding sha3 occurring trie map node)
    {path : List Nibble} {value : TrieValue}
    (found : node.get path = some value) : path.length < 2 ^ 32 := by
  obtain ⟨key, rfl, entry⟩ := holding.agrees.exists_key found
  have small := holding.bounded key
    (AList.lookup_isSome.mp (by rw [entry]; rfl))
  rw [length_asNibbles]
  omega

theorem short (holding : Holding sha3 occurring trie map node) :
    node.Short :=
  short_of_get holding.canonical fun _ _ found => holding.bound found

theorem node_root (holding : Holding sha3 occurring trie map node) :
    (Aecmio.node trie.root).run trie = .ok (enc sha3 node) trie := by
  rw [holding.root]
  exact node_of_holds holding.sound holding.held

theorem run_at (holding : Holding sha3 occurring trie map node)
    (key : Bytes) :
    (at_ key).run trie = .ok ((map.lookup key).getD []) trie := by
  have read := holding.node_root
  have found : (atAux (descentFuel key) (enc sha3 node) ⟨key, 0⟩).run trie =
      .ok (slotBytes (node.get (asNibbles key))) trie :=
    run_atAux holding.sound holding.canonical holding.short holding.stored
      (Nat.zero_le _) (by
        rw [NibbleSlice.toList_mk_zero, length_asNibbles, descentFuel]
        omega)
  have view : rlpOf (enc sha3 node) = pure (enc sha3 node) :=
    rlpOf_enc holding.short
  rw [holding.agrees.slotBytes_get] at found
  unfold at_
  rw [EStateM.run_bind]
  simp only [EStateM.run_get, EStateM.run_bind, read, view]
  exact found

theorem run_root (holding : Holding sha3 occurring trie map node) :
    (Aecmio.root).run trie = .ok trie.root trie := by
  have read := holding.node_root
  unfold Aecmio.root
  rw [EStateM.run_bind]
  simp only [EStateM.run_get, EStateM.run_bind, read, isEmpty_enc_text]
  rfl

/-- The root is the one that the builder computes. -/
theorem hash256_eq (holding : Holding sha3 occurring trie map node) :
    hash256 sha3 map = .ok trie.root := by
  rw [holding.root]
  exact Aecmio.hash256_eq holding.canonical holding.agrees holding.bounded

end Holding

/-! ## Writing -/

/-- What the kills on the way down leave to be killed: a root is in the
database even if it is small. -/
def rootDebt (sha3 : Bytes → H256) (node : Node) : Multiset H256 :=
  if (enc sha3 node).length < 32 then {sha3 (enc sha3 node)} else 0

variable (sha3) in
theorem own_add_rootDebt (node : Node) :
    own sha3 node + rootDebt sha3 node =
      {sha3 (enc sha3 node)} := by
  unfold own rootDebt
  split <;> simp

theorem runs_replaceRoot (injective : Set.InjOn sha3 occurring)
    (sound : Sound sha3 occurring trie) (old new : Node) :
    Runs occurring
      (replaceRoot sha3 (sha3 (enc sha3 old)) (enc sha3 old) (enc sha3 new))
      trie fun _ after =>
        Sound sha3 occurring after ∧ after.root = sha3 (enc sha3 new) ∧
        Holds sha3 after (enc sha3 new) ∧
        (∀ text, Holds sha3 trie text → Holds sha3 after text) ∧
        Balance trie after (rootDebt sha3 old)
          {sha3 (enc sha3 new)} := by
  -- both ways end in the insertion of the new root
  have finish : ∀ middle : GenericTrieDB, Follows sha3 occurring trie middle →
      Balance trie middle (rootDebt sha3 old) 0 →
      Runs occurring (forceInsertNode sha3 (enc sha3 new) >>= setRoot) middle
        fun _ after =>
          Sound sha3 occurring after ∧ after.root = sha3 (enc sha3 new) ∧
          Holds sha3 after (enc sha3 new) ∧
          (∀ text, Holds sha3 trie text → Holds sha3 after text) ∧
          Balance trie after (rootDebt sha3 old)
            {sha3 (enc sha3 new)} := by
    intro middle follows balance
    refine Ensures.bind (runs_forceInsertNode injective follows.sound _) ?_
    rintro hash last ⟨rfl, follows', held, balance'⟩ _
    refine ⟨(), { last with root := sha3 (enc sha3 new) }, rfl,
      ⟨follows'.sound.plain, follows'.sound.entries⟩, rfl, held, ?_, ?_⟩
    · intro text before
      exact follows'.keeps text (follows.keeps text before)
    · exact balance.trans balance'
  unfold replaceRoot rootDebt at *
  by_cases small : (enc sha3 old).length < 32
  · rw [if_pos small]
    rw [if_pos small] at finish ⊢
    refine Ensures.bind (runs_forceKillNode sound _) ?_
    rintro _ middle ⟨follows, balance⟩
    exact finish middle follows balance
  · rw [if_neg small]
    rw [if_neg small] at finish ⊢
    exact finish trie (.refl sound) (.refl 0)

/-- The object after its trie was rewritten. -/
theorem runs_rewritten (injective : Set.InjOn sha3 occurring)
    {start : GenericTrieDB} {old new : Node} {balanced : Prop}
    (follows : Follows sha3 occurring start trie)
    (stored : Stored sha3 trie new)
    (balance : balanced → Balance start trie (own sha3 old + refs sha3 old)
      (refs sha3 new))
    (canonical : new.Canonical) (agrees : Agrees map new)
    (bounded : ∀ key ∈ map, key.length < 2 ^ 30)
    (root : start.root = sha3 (enc sha3 old))
    (null : Holds sha3 start RLPNull) :
    Runs occurring
      (replaceRoot sha3 (sha3 (enc sha3 old)) (enc sha3 old) (enc sha3 new))
      trie fun _ after =>
        Holding sha3 occurring after map new ∧
        (balanced → Counted sha3 start old → Counted sha3 after new) := by
  refine (runs_replaceRoot injective follows.sound old new).mono ?_
  rintro _ after ⟨sound, root', held, keeps, balance'⟩
  refine ⟨⟨sound, root', held, Stored.mono keeps stored,
    keeps _ (follows.keeps _ null), canonical, agrees, bounded⟩, ?_⟩
  intro exact counted
  have first := (balance exact).frame (rootDebt sha3 old)
  have second := balance'.frame (refs sha3 new)
  rw [add_comm, ← add_assoc, add_comm (rootDebt sha3 old),
    own_add_rootDebt] at first
  rw [add_comm, add_comm {sha3 (enc sha3 new)}] at second
  have whole := first.trans second
  intro hash
  rw [root']
  have counts := whole 0 (fun hash => by
    have count := counted hash
    rw [root] at count
    rw [count, zero_add, add_comm]) hash
  rw [counts, zero_add]

namespace Holding

/-- `insert`.  The counts stay right unless the key is a proper prefix of
another. -/
theorem runs_insert (injective : Set.InjOn sha3 occurring)
    (holding : Holding sha3 occurring trie map node) (key : TrieKey)
    (value : TrieValue) :
    Runs occurring (Aecmio.insert sha3 key.val value.val) trie fun _ after =>
      Holding sha3 occurring after (map.insert key.val value.val)
        (node.insert (asNibbles key.val) value) ∧
      (NotInside node (asNibbles key.val) → Counted sha3 trie node →
        Counted sha3 after (node.insert (asNibbles key.val) value)) := by
  have small := key.property
  have read := holding.node_root
  have bounded : ∀ other ∈ map.insert key.val value.val,
      other.length < 2 ^ 30 := by
    intro other member
    rcases AList.mem_insert map |>.mp member with same | member
    · rw [same]
      exact small
    · exact holding.bounded other member
  have merges : MergesTo sha3 occurring (descentFuel key.val) false
      (NotInside node (asNibbles key.val)) node
      (node.insert (asNibbles key.val) value) (asNibbles key.val) value :=
    merges_insert injective holding.canonical holding.short (by
      rw [length_asNibbles]
      omega) value (by
      rw [length_asNibbles, descentFuel]
      omega)
  unfold Aecmio.insert
  refine Ensures.bind_of_run (show (get : TrieM _).run trie = .ok trie trie
    from rfl) ?_
  refine Ensures.bind_of_run read ?_
  simp only [isEmpty_enc_text, Bool.not_false, assert_true, pure_bind,
    rlpOf_enc holding.short]
  refine Ensures.bind (merges trie ⟨key.val, 0⟩ trie.root false holding.sound
    (Nat.zero_le _) rfl holding.stored (by simp [holding.root])) ?_
  rintro text middle ⟨rfl, follows, stored, balance⟩
  simp only [holding.root]
  exact runs_rewritten injective follows stored balance
    (holding.canonical.insert _ value) (holding.agrees.insert key.val value)
    bounded holding.root holding.null

/-- `remove` on a path that the code handles. -/
theorem runs_remove (injective : Set.InjOn sha3 occurring)
    (holding : Holding sha3 occurring trie map node) (key : Bytes)
    (removable : Removable (Plain trie) node (asNibbles key)) :
    match node.erase (asNibbles key) with
    | none => (remove sha3 key).run trie = .ok () trie
    | some erased =>
        Runs occurring (remove sha3 key) trie fun _ after =>
          Holding sha3 occurring after (map.erase key) erased ∧
          (Counted sha3 trie node → Counted sha3 after erased) := by
  have read := holding.node_root
  have deletes := deletes_erase injective holding.sound holding.canonical
    (fun _ _ found => holding.bound found) holding.stored removable
    (show (asNibbles key).length < descentFuel key by
      rw [length_asNibbles, descentFuel]
      omega) ⟨key, 0⟩ (Nat.zero_le _) rfl
  cases result : node.erase (asNibbles key) with
  | none =>
      rw [result] at deletes
      have ran : (deleteAt sha3 (descentFuel key) (enc sha3 node)
          ⟨key, 0⟩).run trie = .ok [] trie := deletes
      change (remove sha3 key).run trie = .ok () trie
      unfold remove
      rw [EStateM.run_bind]
      simp only [EStateM.run_get, EStateM.run_bind, read,
        rlpOf_enc holding.short, EStateM.run_pure, ran]
      rfl
  | some erased =>
      rw [result] at deletes
      have bounded : ∀ other ∈ map.erase key, other.length < 2 ^ 30 :=
        fun other member => holding.bounded other
          (AList.mem_erase.mp member).2
      change Runs occurring (remove sha3 key) trie _
      unfold remove
      refine Ensures.bind_of_run (show (get : TrieM _).run trie =
        .ok trie trie from rfl) ?_
      refine Ensures.bind_of_run read ?_
      simp only [rlpOf_enc holding.short, pure_bind]
      refine Ensures.bind deletes ?_
      rintro text middle ⟨rfl, follows, stored, _, balance⟩
      rw [isEmpty_enc_text, if_neg Bool.false_ne_true, holding.root]
      refine (runs_rewritten injective follows stored
        (show True → _ from fun _ => balance)
        (holding.canonical.erase result).1 (holding.agrees.erase result)
        bounded holding.root holding.null).mono ?_
      rintro _ after ⟨holding', counted⟩
      exact ⟨holding', counted trivial⟩

end Holding

/-- `init` of a fresh object. -/
theorem runs_init (injective : Set.InjOn sha3 occurring) :
    Runs occurring (init sha3) {} fun _ after =>
      Holding sha3 occurring after ∅ .null ∧ Counted sha3 after .null := by
  have fresh : Sound sha3 occurring {} := by
    refine ⟨rfl, ?_⟩
    intro hash text found
    cases found
  unfold init
  refine Ensures.bind (runs_forceInsertNode injective fresh RLPNull) ?_
  rintro hash middle ⟨rfl, follows, held, balance⟩
  let last : GenericTrieDB := { middle with root := sha3 RLPNull }
  have sound : Sound sha3 occurring last :=
    ⟨follows.sound.plain, follows.sound.entries⟩
  have read : (node (sha3 RLPNull)).run last = .ok RLPNull last :=
    node_of_holds sound held
  have counted : Counted sha3 last .null := by
    intro other
    have counts := balance 0 (fun hash => rfl) other
    rw [zero_add] at counts
    rw [refs, zero_add]
    exact counts
  have assigned : Runs occurring (setRoot (sha3 RLPNull)) middle
      fun _ state => state = last := fun _ => ⟨(), last, rfl, rfl⟩
  refine Ensures.bind assigned ?_
  rintro _ _ rfl
  refine Ensures.bind_of_run read ?_
  rw [if_neg (by decide)]
  refine Ensures.bind_of_run read ?_
  exact Ensures.pure ⟨⟨sound, rfl, held, trivial, held, trivial, by
    intro path bytes
    simp, by simp⟩, counted⟩

/-! ## Sequences of calls -/

inductive Operation where
  | insert (key : TrieKey) (value : TrieValue)
  | remove (key : TrieKey)

namespace Operation

def key : Operation → TrieKey
  | insert key _ => key
  | remove key => key

def run (sha3 : Bytes → H256) : Operation → TrieM Unit
  | insert key value => Aecmio.insert sha3 key.val value.val
  | remove key => Aecmio.remove sha3 key.val

/-- What the call does to the map. -/
def apply (map : BytesMap) : Operation → BytesMap
  | insert key value => map.insert key.val value.val
  | remove key => map.erase key.val

end Operation

/-- `init` and then the calls, one after the other. -/
def session (sha3 : Bytes → H256) (operations : List Operation) :
    TrieM Unit := do
  init sha3
  operations.foldlM (fun _ operation => operation.run sha3) ()

/-- The map that the calls give. -/
def contents (operations : List Operation) : BytesMap :=
  operations.foldl Operation.apply ∅

instance keeps_operation (operation : Operation) :
    Keeps (operation.run sha3) := by
  cases operation <;> unfold Operation.run <;> exact inferInstance

/-- All keys have one length. -/
def Uniform (length : Nat) (map : BytesMap) : Prop :=
  ∀ key ∈ map, key.length = length

theorem Uniform.apply {length : Nat} (uniform : Uniform length map)
    {operation : Operation} (same : operation.key.val.length = length) :
    Uniform length (operation.apply map) := by
  intro key member
  cases operation with
  | insert other value =>
      rcases (AList.mem_insert map).mp member with equal | member
      · rw [equal]
        exact same
      · exact uniform key member
  | remove other => exact uniform key (AList.mem_erase.mp member).2

namespace Holding

theorem length_of_uniform (holding : Holding sha3 occurring trie map node)
    {length : Nat} (uniform : Uniform length map) {path : List Nibble}
    (found : (node.get path).isSome) : path.length = length * 2 := by
  obtain ⟨value, held⟩ := Option.isSome_iff_exists.mp found
  obtain ⟨key, rfl, entry⟩ := holding.agrees.exists_key held
  rw [length_asNibbles, uniform key
    (AList.lookup_isSome.mp (by rw [entry]; rfl))]

/-- No entry continues another one of the same length. -/
theorem notInside_of_uniform (holding : Holding sha3 occurring trie map node)
    {length : Nat} (uniform : Uniform length map) {key : Bytes}
    (same : key.length = length) : NotInside node (asNibbles key) := by
  intro other value found inside
  have total := holding.length_of_uniform uniform
    (show (node.get other).isSome by rw [found]; rfl)
  refine (inside.eq_of_length ?_).symm
  rw [length_asNibbles, total, same]

theorem removable_of_uniform (holding : Holding sha3 occurring trie map node)
    {length : Nat} (uniform : Uniform length map) {key : Bytes}
    (same : key.length = length) (plain : TrieValue → Prop) :
    Removable plain node (asNibbles key) := by
  have total : (asNibbles key).length = length * 2 := by
    rw [length_asNibbles, same]
  have size : ∀ path, (node.get path).isSome → path.length = length * 2 :=
    fun path found => holding.length_of_uniform uniform found
  have shorter : ∀ before, before <+: asNibbles key →
      before ≠ asNibbles key → ¬ (node.get before).isSome := by
    intro before inside different found
    refine different (inside.eq_of_length ?_)
    rw [size before found, total]
  rw [removable_iff holding.canonical]
  refine ⟨?_, ?_, ?_⟩
  · rintro ⟨_, one, _, left, _, _, found, _⟩
    have longer := size _ found
    rw [List.length_append, List.length_cons, total] at longer
    omega
  · rintro ⟨before, inside, different, found, _⟩
    exact shorter before inside different found
  · rintro held ⟨_, before, inside, different, found, _⟩
    refine absurd ?_ (shorter before inside different)
    rw [found]
    rfl

/-- A call with a key of the common length. -/
theorem runs_operation (injective : Set.InjOn sha3 occurring)
    (holding : Holding sha3 occurring trie map node)
    (counted : Counted sha3 trie node) {length : Nat}
    (uniform : Uniform length map) (operation : Operation)
    (same : operation.key.val.length = length) :
    Runs occurring (operation.run sha3) trie fun _ after =>
      ∃ node, Holding sha3 occurring after (operation.apply map) node ∧
        Counted sha3 after node := by
  cases operation with
  | insert key value =>
      refine (holding.runs_insert injective key value).mono ?_
      rintro _ after ⟨holding', counted'⟩
      exact ⟨_, holding', counted'
        (holding.notInside_of_uniform uniform same) counted⟩
  | remove key =>
      have removed := holding.runs_remove injective key.val
        (holding.removable_of_uniform uniform same (Plain trie))
      cases result : node.erase (asNibbles key.val) with
      | none =>
          rw [result] at removed
          have absent := (holding.agrees.get_eq_none_iff key.val).mp
            ((erase_eq_none_iff _ _).mp result)
          intro _
          refine ⟨(), trie, removed, node, ?_, counted⟩
          exact { holding with
            agrees := holding.agrees.erase_absent absent
            bounded := fun other member =>
              holding.bounded other (AList.mem_erase.mp member).2 }
      | some erased =>
          rw [result] at removed
          refine Ensures.mono removed ?_
          rintro _ after ⟨holding', counted'⟩
          exact ⟨erased, holding', counted' counted⟩

end Holding

/-- Every state of a session over keys of one length. -/
theorem runs_session (injective : Set.InjOn sha3 occurring) {length : Nat}
    {operations : List Operation}
    (uniform : ∀ operation ∈ operations,
      operation.key.val.length = length) :
    Runs occurring (session sha3 operations) {} fun _ after =>
      Uniform length (contents operations) ∧
      ∃ node, Holding sha3 occurring after (contents operations) node ∧
        Counted sha3 after node := by
  -- the calls that are left, from any state on the way
  have rest : ∀ (operations : List Operation) (map : BytesMap) (node : Node)
      (trie : GenericTrieDB), Holding sha3 occurring trie map node →
      Counted sha3 trie node → Uniform length map →
      (∀ operation ∈ operations, operation.key.val.length = length) →
      Runs occurring
        (operations.foldlM (fun _ operation => operation.run sha3) ()) trie
        fun _ after =>
          Uniform length (operations.foldl Operation.apply map) ∧
          ∃ node, Holding sha3 occurring after
              (operations.foldl Operation.apply map) node ∧
            Counted sha3 after node := by
    intro operations
    induction operations with
    | nil =>
        intro map node trie holding counted same _
        exact Ensures.pure ⟨same, node, holding, counted⟩
    | cons operation operations induction =>
        intro map node trie holding counted same uniform
        have here := uniform operation (by simp)
        rw [List.foldlM_cons]
        refine Ensures.bind
          (holding.runs_operation injective counted same operation here) ?_
        rintro _ after ⟨node', holding', counted'⟩
        exact induction _ node' after holding' counted' (same.apply here)
          (fun later member => uniform later (by simp [member]))
  unfold session
  refine Ensures.bind (runs_init injective) ?_
  rintro _ after ⟨holding, counted⟩
  refine rest operations ∅ .null after holding counted ?_ uniform
  intro key member
  simp at member

/-- The calls of a session that only inserts. -/
def insertions (entries : List (TrieKey × TrieValue)) : List Operation :=
  entries.map fun entry => .insert entry.1 entry.2

/-- Every state of a session that only inserts, whatever the keys are. -/
theorem runs_insertions (injective : Set.InjOn sha3 occurring)
    (entries : List (TrieKey × TrieValue)) :
    Runs occurring (session sha3 (insertions entries)) {} fun _ after =>
      ∃ node, Holding sha3 occurring after (contents (insertions entries))
        node := by
  have rest : ∀ (entries : List (TrieKey × TrieValue)) (map : BytesMap)
      (node : Node) (trie : GenericTrieDB),
      Holding sha3 occurring trie map node →
      Runs occurring ((insertions entries).foldlM
        (fun _ operation => operation.run sha3) ()) trie
        fun _ after =>
          ∃ node, Holding sha3 occurring after
            ((insertions entries).foldl Operation.apply map) node := by
    intro entries
    induction entries with
    | nil =>
        intro map node trie holding
        exact Ensures.pure ⟨node, holding⟩
    | cons entry entries induction =>
        intro map node trie holding
        rw [insertions, List.map_cons, List.foldlM_cons]
        refine Ensures.bind
          (holding.runs_insert injective entry.1 entry.2) ?_
        rintro _ after ⟨holding', _⟩
        exact induction _ _ after holding'
  unfold session
  refine Ensures.bind (runs_init injective) ?_
  rintro _ after ⟨holding, _⟩
  exact rest entries ∅ .null after holding

/-- The last value that was inserted for a key. -/
def lastInserted (entries : List (TrieKey × TrieValue)) (key : Bytes) :
    Option Bytes :=
  (entries.filter fun entry => decide (entry.1.val = key)).getLast?.map
    fun entry => entry.2.val

theorem lookup_insertions (entries : List (TrieKey × TrieValue))
    (key : Bytes) :
    (contents (insertions entries)).lookup key = lastInserted entries key := by
  induction entries using List.reverseRecOn with
  | nil => rfl
  | append_singleton entries entry induction =>
      have applied : contents (insertions (entries ++ [entry])) =
          (contents (insertions entries)).insert entry.1.val entry.2.val := by
        simp [contents, insertions, Operation.apply]
      rw [applied]
      by_cases same : entry.1.val = key
      · subst same
        simp [lastInserted, List.filter_append, AList.lookup_insert]
      · rw [AList.lookup_insert_ne (Ne.symm same), induction]
        simp [lastInserted, List.filter_append, same]

end Aecmio
