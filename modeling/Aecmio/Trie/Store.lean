import Aecmio.Trie.NodeCode

/-!
# Tries in the database

What the database must hold for a trie to be readable, how an operation may
change it, and how reference counts move.  `occurring` is the set of strings
that are ever handed to the database, on which the hash is injective.
-/

namespace Aecmio

open Item TrieM Traced

variable (sha3 : Bytes → H256) (occurring : Set Bytes)

/-- Every entry is a string that occurs, under its own hash. -/
structure Sound (trie : GenericTrieDB) : Prop where
  plain : trie.db.enforceRefs = false
  entries : ∀ hash text, trie.db.content hash = some text →
    sha3 text = hash ∧ text ∈ occurring

/-- The string is in the database. -/
def Holds (trie : GenericTrieDB) (text : Bytes) : Prop :=
  trie.db.content (sha3 text) = some text

/-- Nothing readable is lost on the way from one state to another. -/
structure Follows (before after : GenericTrieDB) : Prop where
  sound : Sound sha3 occurring after
  root : after.root = before.root
  keeps : ∀ text, Holds sha3 before text → Holds sha3 after text

/-- The references consumed are given back and the produced ones are taken,
whatever other references there are. -/
def Balance (before after : GenericTrieDB)
    (consumed produced : Multiset H256) : Prop :=
  ∀ rest : Multiset H256,
    (∀ hash, before.db.count hash = (rest + consumed).count hash) →
      ∀ hash, after.db.count hash = (rest + produced).count hash

namespace Node

/-- The reference to a node itself, if it is hashed. -/
def own (node : Node) : Multiset H256 :=
  if (enc sha3 node).length < 32 then 0 else {sha3 (enc sha3 node)}

/-- The references to the nodes below a node, with multiplicities. -/
def refs : Node → Multiset H256
  | .null => 0
  | .leaf _ _ => 0
  | .ext _ child => own sha3 child + refs child
  | .branch children _ =>
      ∑ digit, (own sha3 (children digit) + refs (children digit))

/-- The hashed nodes below a node are in the database. -/
def Stored (trie : GenericTrieDB) : Node → Prop
  | .null => True
  | .leaf _ _ => True
  | .ext _ child =>
      (¬ (enc sha3 child).length < 32 → Holds sha3 trie (enc sha3 child)) ∧
        Stored trie child
  | .branch children _ =>
      ∀ digit, (¬ (enc sha3 (children digit)).length < 32 →
        Holds sha3 trie (enc sha3 (children digit))) ∧
          Stored trie (children digit)

/-- A node as its parent finds it. -/
def StoredRef (trie : GenericTrieDB) (node : Node) : Prop :=
  (¬ (enc sha3 node).length < 32 → Holds sha3 trie (enc sha3 node)) ∧
    Stored sha3 trie node

end Node

section Relations

variable {sha3 : Bytes → H256} {occurring : Set Bytes}
variable {before middle after : GenericTrieDB}

theorem Follows.refl (sound : Sound sha3 occurring before) :
    Follows sha3 occurring before before :=
  ⟨sound, rfl, fun _ held => held⟩

theorem Follows.trans (first : Follows sha3 occurring before middle)
    (second : Follows sha3 occurring middle after) :
    Follows sha3 occurring before after :=
  ⟨second.sound, second.root.trans first.root,
    fun text held => second.keeps text (first.keeps text held)⟩

theorem Balance.refl (references : Multiset H256) :
    Balance before before references references :=
  fun _ counts => counts

theorem Balance.trans {first second third : Multiset H256}
    (left : Balance before middle first second)
    (right : Balance middle after second third) :
    Balance before after first third :=
  fun rest counts => right rest (left rest counts)

/-- Other references are not touched. -/
theorem Balance.frame {consumed produced : Multiset H256}
    (balance : Balance before after consumed produced)
    (other : Multiset H256) :
    Balance before after (consumed + other) (produced + other) := by
  intro rest counts hash
  have moved := balance (rest + other)
    (fun hash => by
      rw [counts hash]
      congr 1
      rw [add_assoc, add_comm other, ← add_assoc])
    hash
  rw [moved]
  congr 1
  rw [add_assoc, add_comm other]

theorem node_of_holds {text : Bytes} (sound : Sound sha3 occurring before)
    (held : Holds sha3 before text) :
    (node (sha3 text)).run before = .ok text before := by
  have found : before.db.lookup (sha3 text) = text := by
    rw [MemoryDB.lookup_eq_content sound.plain, held]
    rfl
  simp [node, EStateM.run_bind, found]

namespace Node

theorem Stored.mono {node : Node}
    (keeps : ∀ text, Holds sha3 before text → Holds sha3 after text)
    (stored : Stored sha3 before node) : Stored sha3 after node := by
  induction node with
  | null => trivial
  | leaf key value => trivial
  | ext key child induction =>
      exact ⟨fun large => keeps _ (stored.1 large), induction stored.2⟩
  | branch children value induction =>
      intro digit
      exact ⟨fun large => keeps _ ((stored digit).1 large),
        induction digit (stored digit).2⟩

theorem StoredRef.mono {node : Node}
    (keeps : ∀ text, Holds sha3 before text → Holds sha3 after text)
    (stored : StoredRef sha3 before node) : StoredRef sha3 after node :=
  ⟨fun large => keeps _ (stored.1 large), stored.2.mono keeps⟩

end Node

end Relations

/-! ## One child of a branch -/

namespace Node

variable {sha3 : Bytes → H256} {trie : GenericTrieDB}

/-- The references of a branch, those of one child apart. -/
theorem refs_branch_update (children : Nibble → Node) (digit : Nibble)
    (child : Node) (value : Option TrieValue) :
    refs sha3 (.branch (Function.update children digit child) value) =
      own sha3 child + refs sha3 child +
        ∑ other ∈ Finset.univ.erase digit,
          (own sha3 (children other) + refs sha3 (children other)) := by
  rw [refs, ← Finset.add_sum_erase _ _ (Finset.mem_univ digit)]
  congr 1
  · simp
  · apply Finset.sum_congr rfl
    intro other member
    rw [Function.update_of_ne (Finset.ne_of_mem_erase member)]

theorem refs_branch (children : Nibble → Node) (digit : Nibble)
    (value : Option TrieValue) :
    refs sha3 (.branch children value) =
      own sha3 (children digit) + refs sha3 (children digit) +
        ∑ other ∈ Finset.univ.erase digit,
          (own sha3 (children other) + refs sha3 (children other)) := by
  rw [← refs_branch_update children digit (children digit) value,
    Function.update_eq_self]

theorem stored_update {children : Nibble → Node} {digit : Nibble}
    {child : Node} {old value : Option TrieValue}
    (stored : Stored sha3 trie (.branch children old))
    (new : StoredRef sha3 trie child) :
    Stored sha3 trie (.branch (Function.update children digit child) value) := by
  intro other
  by_cases same : other = digit
  · subst same
    rw [Function.update_self]
    exact new
  · rw [Function.update_of_ne same]
    exact stored other

theorem ref_update (children : Nibble → Node) (digit : Nibble)
    (child : Node) :
    (fun other => ref sha3 (Function.update children digit child other)) =
      Function.update (fun other => ref sha3 (children other)) digit
        (ref sha3 child) := by
  funext other
  by_cases same : other = digit
  · subst same
    simp
  · simp [same]

end Node

/-! ## The database operations -/

section Operations

variable {sha3 : Bytes → H256} {occurring : Set Bytes}
variable {trie : GenericTrieDB}

/-- A triple for the trie code. -/
abbrev Runs (occurring : Set Bytes) {α : Type} (method : TrieM α)
    (trie : GenericTrieDB) (post : α → GenericTrieDB → Prop) : Prop :=
  Ensures GenericTrieDB.history occurring method trie post

theorem runs_forceKillNode (sound : Sound sha3 occurring trie) (hash : H256) :
    Runs occurring (forceKillNode hash) trie fun _ after =>
      Follows sha3 occurring trie after ∧ Balance trie after {hash} 0 := by
  intro _
  refine ⟨(), { trie with db := (trie.db.kill hash).1 }, rfl, ⟨?_, ?_⟩⟩
  · refine ⟨⟨?_, ?_⟩, rfl, ?_⟩
    · simpa using sound.plain
    · intro other text found
      exact sound.entries other text (by simpa [MemoryDB.content_kill]
        using found)
    · intro text held
      simpa [Holds, MemoryDB.content_kill] using held
  · intro rest counts other
    rw [MemoryDB.count_kill]
    by_cases same : other = hash
    · subst same
      simp [counts other]
    · simp [same, counts other]

theorem runs_forceInsertNode (injective : Set.InjOn sha3 occurring)
    (sound : Sound sha3 occurring trie) (text : Bytes) :
    Runs occurring (forceInsertNode sha3 text) trie fun hash after =>
      hash = sha3 text ∧ Follows sha3 occurring trie after ∧
        Holds sha3 after text ∧ Balance trie after 0 {sha3 text} := by
  intro allowed
  have occurs : text ∈ occurring := allowed text (by
    exact List.mem_cons_self)
  refine ⟨sha3 text, _, rfl, rfl, ⟨⟨?_, ?_⟩, rfl, ?_⟩, ?_, ?_⟩
  · simpa using sound.plain
  · intro hash other found
    rw [MemoryDB.content_insert] at found
    by_cases same : hash = sha3 text
    · rw [if_pos same] at found
      have equal := Option.some.inj found
      rw [← equal]
      exact ⟨same.symm, occurs⟩
    · rw [if_neg same] at found
      exact sound.entries hash other found
  · intro other held
    unfold Holds at held ⊢
    rw [MemoryDB.content_insert]
    by_cases same : sha3 other = sha3 text
    · have equal : other = text :=
        injective (sound.entries _ _ held).2 occurs same
      rw [if_pos same, equal]
    · rw [if_neg same, held]
  · unfold Holds
    rw [MemoryDB.content_insert, if_pos rfl]
  · intro rest counts hash
    rw [MemoryDB.count_insert]
    by_cases same : hash = sha3 text
    · subst same
      simp [counts]
    · simp [same, counts]

theorem runs_killNode (sound : Sound sha3 occurring trie) (node : Node) :
    Runs occurring (killNode sha3 (node.enc sha3)) trie fun _ after =>
      Follows sha3 occurring trie after ∧
        Balance trie after (node.own sha3) 0 := by
  unfold killNode Node.own
  by_cases inline : (node.enc sha3).length < 32
  · rw [if_neg (by omega), if_pos inline]
    exact Ensures.pure ⟨.refl sound, .refl 0⟩
  · rw [if_pos (by omega), if_neg inline]
    exact runs_forceKillNode sound _

/-- A node appended to its parent's stream, through the database if it is
not small. -/
theorem runs_streamNode (injective : Set.InjOn sha3 occurring)
    (sound : Sound sha3 occurring trie) {total : Nat} {done : List Item}
    (node : Node) (missing : done.length < total)
    (small : (encodeAll (done ++ [node.ref sha3])).length < sizeTRange) :
    Runs occurring (streamNode sha3 (building total done) (node.enc sha3)) trie
      fun stream after =>
        stream = building total (done ++ [node.ref sha3]) ∧
          Follows sha3 occurring trie after ∧
          (¬ (node.enc sha3).length < 32 →
            Holds sha3 after (node.enc sha3)) ∧
          Balance trie after 0 (node.own sha3) := by
  unfold streamNode Node.own
  by_cases inline : (node.enc sha3).length < 32
  · have written := appendRaw_building missing small
    rw [Node.ref_inline sha3 inline] at written ⊢
    have appended : (building total done).appendRaw (node.enc sha3) 1 =
        .ok (building total (done ++ [node.item sha3])) := written
    rw [if_pos inline, if_pos inline, appended]
    exact Ensures.pure ⟨rfl, .refl sound, fun large => absurd inline large,
      .refl 0⟩
  · have written := Node.ref_hashed sha3 inline
    rw [written] at small ⊢
    rw [if_neg inline, if_neg inline]
    refine Ensures.bind (runs_forceInsertNode injective sound _) ?_
    rintro hash after ⟨rfl, follows, held, balance⟩
    rw [append_building missing small]
    exact Ensures.pure ⟨rfl, follows, fun _ => held, balance⟩

/-! ## The loop over the slots of a branch -/

theorem range_split (digit : Nibble) :
    List.range 17 = List.range' 0 digit.val ++
      digit.val :: List.range' (digit.val + 1) (16 - digit.val) := by
  have bound := digit.isLt
  have joined : List.range' 0 digit.val ++
      List.range' (0 + digit.val) (16 - digit.val + 1) =
        List.range' 0 (digit.val + (16 - digit.val + 1)) :=
    List.range'_append_1
  rw [Nat.zero_add, show digit.val + (16 - digit.val + 1) = 17 by omega]
    at joined
  rw [List.range_eq_range', ← List.range'_succ, joined]

section Slots

variable {β : Type} {step : β → Nat → TrieM β} (wrap : RLPStream → β)
  {slots : List Item} {digit : Nibble}

/-- A loop that copies every slot but one comes to that slot. -/
theorem foldlM_slots_eq (count : slots.length = 17)
    (small : (encodeAll slots).length < RLP.readLimit)
    (copies : ∀ stream slot, slot < 17 → slot ≠ digit.val →
      step (wrap stream) slot = do
        let entry ← itemAt (Item.list slots).encode slot
        let stream ← ofRLP (stream.appendRaw entry 1)
        return wrap stream) :
    (List.range 17).foldlM step (wrap (building 17 [])) =
      step (wrap (building 17 (slots.take digit.val))) digit.val >>=
        fun state => (List.range' (digit.val + 1) (16 - digit.val)).foldlM step
          state := by
  have bound := digit.isLt
  have before : (List.range' 0 digit.val).foldlM step
      (wrap (building 17 [])) =
        pure (wrap (building 17 ([] ++ (slots.drop 0).take digit.val))) :=
    foldlM_copy wrap
      (fun stream slot _ upper => copies stream slot (by omega) (by omega))
      (by omega) small (by simp; omega) (by
        rw [List.nil_append, List.drop_zero]
        rw [← List.take_append_drop digit.val slots] at small
        exact small_prefix small)
  rw [List.nil_append, List.drop_zero] at before
  rw [range_split digit, List.foldlM_append, before, pure_bind,
    List.foldlM_cons]

/-- What happens at the slot that is not copied decides how the loop ends. -/
theorem runs_foldlM_slots [∀ state slot, Keeps (step state slot)]
    {new : Item} {post : GenericTrieDB → Prop} (count : slots.length = 17)
    (small : (encodeAll slots).length < RLP.readLimit)
    (small' : (encodeAll (slots.take digit.val ++
      new :: slots.drop (digit.val + 1))).length < RLP.readLimit)
    (copies : ∀ stream slot, slot < 17 → slot ≠ digit.val →
      step (wrap stream) slot = do
        let entry ← itemAt (Item.list slots).encode slot
        let stream ← ofRLP (stream.appendRaw entry 1)
        return wrap stream)
    (here : Runs occurring
      (step (wrap (building 17 (slots.take digit.val))) digit.val) trie
      fun state after =>
        state = wrap (building 17 (slots.take digit.val ++ [new])) ∧
          post after) :
    Runs occurring ((List.range 17).foldlM step (wrap (building 17 []))) trie
      fun state after =>
        state = wrap (building 17 (slots.take digit.val ++
          new :: slots.drop (digit.val + 1))) ∧ post after := by
  have bound := digit.isLt
  have front : (slots.take digit.val).length = digit.val := by
    rw [List.length_take, count]
    omega
  have whole : slots.take digit.val ++ new :: slots.drop (digit.val + 1) =
      (slots.take digit.val ++ [new]) ++
        (slots.drop (digit.val + 1)).take (16 - digit.val) := by
    have all : (slots.drop (digit.val + 1)).take (16 - digit.val) =
        slots.drop (digit.val + 1) := by
      apply List.take_of_length_le
      rw [List.length_drop]
      omega
    simp [all]
  have behind : (List.range' (digit.val + 1) (16 - digit.val)).foldlM step
      (wrap (building 17 (slots.take digit.val ++ [new]))) =
        pure (wrap (building 17 ((slots.take digit.val ++ [new]) ++
          (slots.drop (digit.val + 1)).take (16 - digit.val)))) :=
    foldlM_copy wrap
      (fun stream slot lower upper =>
        copies stream slot (by omega) (by omega))
      (by omega) small (by
        rw [List.length_append, front, List.length_singleton]
        omega) (by
        rw [← whole]
        exact sizeTRange_of_readLimit small')
  rw [foldlM_slots_eq wrap count small copies]
  refine Ensures.bind here ?_
  rintro state after ⟨rfl, holds⟩
  rw [behind, ← whole]
  exact Ensures.pure ⟨rfl, holds⟩

end Slots

end Operations

end Aecmio
