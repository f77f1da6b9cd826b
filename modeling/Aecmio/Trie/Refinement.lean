import Aecmio.Trie.Session

/-!
# The trie and the one-shot builder agree

Whatever calls have been made, the object answers like the map that they
give, and its root is the one that `hash256` computes from that map.
-/

namespace Aecmio

open Traced

variable {sha3 : Bytes → H256}

/-- The strings that a session hands to the database. -/
def written (sha3 : Bytes → H256) (operations : List Operation) : Set Bytes :=
  { text | text ∈ (final (session sha3 operations) {}).history }

/-- A finite check that no two strings of a session collide. -/
theorem injOn_written {operations : List Operation}
    (distinct : ∀ text ∈ (final (session sha3 operations) {}).history,
      ∀ other ∈ (final (session sha3 operations) {}).history,
        sha3 text = sha3 other → text = other) :
    Set.InjOn sha3 (written sha3 operations) :=
  fun text first other second => distinct text first other second

/-- A session whose every string is allowed succeeds. -/
theorem session_ok {operations : List Operation}
    {post : Unit → GenericTrieDB → Prop}
    (runs : Runs (written sha3 operations) (session sha3 operations) {} post) :
    ∃ trie, (session sha3 operations).run {} = .ok () trie ∧ post () trie := by
  obtain ⟨_, trie, ran, holds⟩ := runs fun _ member => member
  exact ⟨trie, ran, holds⟩

theorem Agrees.congr {map other : BytesMap} {node : Node}
    (agrees : Agrees map node)
    (same : ∀ key, other.lookup key = map.lookup key) :
    Agrees other node := by
  intro path bytes
  rw [agrees path bytes]
  exact exists_congr fun key => by rw [same]

/-- Calls with keys of one length, in any order: the object answers like the
map, removing an absent key changes nothing, and the root depends on the map
only. -/
theorem session_refines_map (length : Nat) (operations : List Operation)
    (uniform : ∀ operation ∈ operations, operation.key.val.length = length)
    (injective : Set.InjOn sha3 (written sha3 operations)) :
    ∃ trie, (session sha3 operations).run {} = .ok () trie ∧
      (∀ key : TrieKey, (at_ key.val).run trie =
        .ok (((contents operations).lookup key.val).getD []) trie) ∧
      (∀ key : TrieKey, key.val.length = length →
        key.val ∉ contents operations →
          (remove sha3 key.val).run trie = .ok () trie) ∧
      ∃ hash, root.run trie = .ok hash trie ∧
        hash256 sha3 (contents operations) = .ok hash ∧
        ∀ (others : List Operation) (trie' : GenericTrieDB),
          (∀ operation ∈ others, operation.key.val.length = length) →
          Set.InjOn sha3 (written sha3 others) →
          (∀ key, (contents others).lookup key =
            (contents operations).lookup key) →
          (session sha3 others).run {} = .ok () trie' →
            root.run trie' = .ok hash trie' := by
  obtain ⟨trie, ran, same, node, holding, _⟩ :=
    session_ok (runs_session injective uniform)
  refine ⟨trie, ran, fun key => holding.run_at key.val, ?_, trie.root,
    holding.run_root, holding.hash256_eq, ?_⟩
  · intro key size absent
    have removed := holding.runs_remove injective key.val
      (holding.removable_of_uniform same size (Plain trie))
    have missing : node.erase (asNibbles key.val) = none := by
      rw [Patricia.Trie.erase_eq_none_iff, holding.agrees.get_eq_none_iff]
      exact AList.lookup_eq_none.mpr absent
    rwa [missing] at removed
  · intro others trie' uniform' injective' lookups ran'
    obtain ⟨reached, found, _, node', holding', _⟩ :=
      session_ok (runs_session injective' uniform')
    obtain rfl : reached = trie' := by
      rw [found] at ran'
      injection ran'
    have first := holding'.hash256_eq
    rw [Aecmio.hash256_eq holding.canonical (holding.agrees.congr lookups)
      holding'.bounded, ← holding.root] at first
    rw [holding'.run_root, Except.ok.inj first]

/-- Keccak-256 on the strings of the sample sessions. -/
def sampleHash (text : Bytes) : H256 :=
  hashOfNat
    (if text = [0x80] then
      0x56e81f171bcc55a6ff8345e692c0f86e5b48e01b996cadc001622fb5e363b421
    else if text = [0xc4, 0x82, 0x20, 0x12, 0x61] then
      0x35ada833c638a9a5d332f9bb7d8a879269a27077a0e31404ef20273bff0d80f6
    else if text = [0xc4, 0x82, 0x20, 0x13, 0x61] then
      0xd205eae7bfc569022b6fc9d2d7de029b0aab9c41544b87584c0029d24eeb0256
    else if text = [0xd7, 0x11, 0xd5, 0x80, 0x80, 0xc2, 0x20, 0x61, 0xc2, 0x20,
        0x61] ++ List.replicate 13 0x80 then
      0x5782ce9ad1a7eb05f671bd5e9b941928181a2fa4f61b06f9d47fea85318d2644
    else if text = [0xd3, 0x80, 0xc2, 0x32, 0x61] ++
        List.replicate 14 0x80 ++ [0x62] then
      0x5e133d19c5a73cc842c83a08b1e3d0adc58465ca33ef1a672b7aeb5692778014
    else if text = [0xc2, 0x20, 0x62] then
      0x2be99ec7c64d26e396f9def418de4d9441990aa37d639bd50eab3a07b51c392b
    else if text = [0xd5, 0x80, 0xc2, 0x32, 0x61, 0xc2, 0x33, 0x62] ++
        List.replicate 14 0x80 then
      0x59ca309f2ba4aa40992754044bc031e1df61854de0ed37e00b922f55379ca4cc
    else if text = [0xe3, 0x20, 0xa1] ++ List.replicate 33 0x61 then
      0xa69d64847cfd8fa01236720213dbc2ff02bb44b51ccfaa17c4e385c196023a50
    else if text = [0xf4, 0x80, 0xc2, 0x32, 0x62] ++ List.replicate 14 0x80 ++
        0xa1 :: List.replicate 33 0x61 then
      0xe847d70dfae3a5213c6f498d694466b67688c2de4a01646a3b71fcea7d34e602
    else 0)

/-- Two insertions and a removal with keys of one byte. -/
def sampleCalls : List Operation :=
  [.insert ⟨[0x12], by decide⟩ ⟨[0x61], by decide⟩,
    .insert ⟨[0x13], by decide⟩ ⟨[0x61], by decide⟩,
    .remove ⟨[0x12], by decide⟩]

theorem session_refines_map_sample :
    ∃ trie, (session sampleHash sampleCalls).run {} = .ok () trie ∧
      (at_ [0x13]).run trie = .ok [0x61] trie ∧
      (at_ [0x12]).run trie = .ok [] trie ∧
      (remove sampleHash [0x12]).run trie = .ok () trie ∧
      ∃ hash, root.run trie = .ok hash trie ∧
        hash256 sampleHash (contents sampleCalls) = .ok hash := by
  have injective : Set.InjOn sampleHash (written sampleHash sampleCalls) :=
    injOn_written (by decide +kernel)
  obtain ⟨trie, ran, answers, absent, hash, root, built, _⟩ :=
    session_refines_map 1 sampleCalls (by decide) injective
  exact ⟨trie, ran, answers ⟨[0x13], by decide⟩, answers ⟨[0x12], by decide⟩,
    absent ⟨[0x12], by decide⟩ rfl (by decide), hash, root, built⟩

/-- Insertions with any keys: the object answers with the last value that was
inserted, and the root is that of the map. -/
theorem insertions_refine_map (entries : List (TrieKey × TrieValue))
    (injective : Set.InjOn sha3 (written sha3 (insertions entries))) :
    ∃ trie hash,
      (session sha3 (insertions entries)).run {} = .ok () trie ∧
      root.run trie = .ok hash trie ∧
      hash256 sha3 (contents (insertions entries)) = .ok hash ∧
      (∀ key, (contents (insertions entries)).lookup key =
        lastInserted entries key) ∧
      ∀ key : TrieKey, (at_ key.val).run trie =
        .ok ((lastInserted entries key.val).getD []) trie := by
  obtain ⟨trie, ran, node, holding⟩ :=
    session_ok (runs_insertions injective entries)
  refine ⟨trie, trie.root, ran, holding.run_root, holding.hash256_eq,
    lookup_insertions entries, ?_⟩
  intro key
  rw [holding.run_at, lookup_insertions]

/-- The empty key below a key of one byte. -/
def sampleEntries : List (TrieKey × TrieValue) :=
  [(⟨[0x12], by decide⟩, ⟨[0x61], by decide⟩),
    (⟨[], by decide⟩, ⟨[0x62], by decide⟩)]

theorem insertions_refine_map_sample :
    ∃ trie hash,
      (session sampleHash (insertions sampleEntries)).run {} = .ok () trie ∧
      root.run trie = .ok hash trie ∧
      hash256 sampleHash (contents (insertions sampleEntries)) = .ok hash ∧
      (at_ []).run trie = .ok [0x62] trie ∧
      (at_ [0x12]).run trie = .ok [0x61] trie ∧
      (at_ [0x13]).run trie = .ok [] trie := by
  have injective : Set.InjOn sampleHash
      (written sampleHash (insertions sampleEntries)) :=
    injOn_written (by decide +kernel)
  obtain ⟨trie, hash, ran, root, built, _, answers⟩ :=
    insertions_refine_map sampleEntries injective
  exact ⟨trie, hash, ran, root, built, answers ⟨[], by decide⟩,
    answers ⟨[0x12], by decide⟩, answers ⟨[0x13], by decide⟩⟩

end Aecmio
