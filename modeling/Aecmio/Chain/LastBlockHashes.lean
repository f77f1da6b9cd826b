import Aecmio.Chain.Uncles

/-!
# The hashes before a block

`LastBlockHashes` keeps the list that was asked for last, under the hash at
its front.  The list is filled in place, one parent after the other: an
ancestor that cannot be read leaves it half filled, with the new front.
-/

namespace Aecmio

/-- `m_lastHashes`, empty as long as nothing is kept. -/
structure LastBlockHashes where
  lastHashes : List H256 := []

abbrev HashesM := EStateM RLPError LastBlockHashes

namespace LastBlockHashes

section

variable [Hashing]

/-- `m_lastHashes[i] ? m_bc.info(m_lastHashes[i]).parentHash() : h256()`. -/
def parentOf (tree : BlockTree) (hash : H256) : Except RLPError H256 :=
  if hash = zeroHash 32 then .ok (zeroHash 32)
  else (tree.info hash).map BlockHeader.parentHash

/-- `m_lastHashes.resize(256)`. -/
def resize (hashes : List H256) : List H256 :=
  hashes.take 256 ++ List.replicate (256 - hashes.length) (zeroHash 32)

/-- The loop over the parents, from an index on. -/
def fill (tree : BlockTree) : Nat → Nat → HashesM Unit
  | 0, _ => pure ()
  | rounds + 1, index => do
      let hashes := (← get).lastHashes
      match parentOf tree (hashes.getD index (zeroHash 32)) with
      | .ok parent =>
          set ({ lastHashes := hashes.set (index + 1) parent } :
            LastBlockHashes)
          fill tree rounds (index + 1)
      | .error error => throw error

def precedingHashes (tree : BlockTree) (mostRecentHash : H256) :
    HashesM (List H256) := do
  let hashes := (← get).lastHashes
  if hashes.head? ≠ some mostRecentHash then
    set ({ lastHashes := (resize hashes).set 0 mostRecentHash } :
      LastBlockHashes)
    fill tree 255 0
  return (← get).lastHashes

inductive Call where
  | precedingHashes (mostRecentHash : H256)
  | clear
deriving DecidableEq

/-- What `precedingHashes` gives, and what is kept then. -/
def answer (tree : BlockTree) (mostRecentHash : H256)
    (cache : LastBlockHashes) :
    Except RLPError (List H256) × LastBlockHashes :=
  match (precedingHashes tree mostRecentHash).run cache with
  | .ok hashes cache => (.ok hashes, cache)
  | .error error cache => (.error error, cache)

/-- `precedingHashes` of a new object. -/
def fresh (tree : BlockTree) (mostRecentHash : H256) :
    Except RLPError (List H256) :=
  (answer tree mostRecentHash {}).1

/-- The answers to a sequence of calls, with the hashes they are about. -/
def answers (tree : BlockTree) : List Call → LastBlockHashes →
    List (H256 × Except RLPError (List H256))
  | [], _ => []
  | .precedingHashes hash :: calls, cache =>
      (hash, (answer tree hash cache).1) ::
        answers tree calls (answer tree hash cache).2
  | .clear :: calls, _ => answers tree calls {}

/-- What is kept after a sequence of calls. -/
def after (tree : BlockTree) : List Call → LastBlockHashes → LastBlockHashes
  | [], cache => cache
  | .precedingHashes hash :: calls, cache =>
      after tree calls (answer tree hash cache).2
  | .clear :: calls, _ => after tree calls {}

/-! ## The line of ancestors -/

/-- The ancestor of a block some steps back, zero before the genesis. -/
def ancestor (tree : BlockTree) (hash : H256) : Nat → Except RLPError H256
  | 0 => .ok hash
  | steps + 1 => (ancestor tree hash steps).bind (parentOf tree)

/-- The block and its 255 successive ancestors. -/
structure IsLine (tree : BlockTree) (hash : H256) (hashes : List H256) :
    Prop where
  length : hashes.length = 256
  ancestors : ∀ steps < 256,
    ancestor tree hash steps = .ok (hashes.getD steps (zeroHash 32))

/-- One of the 255 blocks whose parents are asked for cannot be read. -/
def Missing (tree : BlockTree) (hash : H256) : Prop :=
  (ancestor tree hash 255).isOk = false

instance (tree : BlockTree) (hash : H256) : Decidable (Missing tree hash) :=
  inferInstanceAs (Decidable (_ = _))

variable {tree : BlockTree} {hash : H256} {hashes other : List H256}
  {cache : LastBlockHashes}

theorem ancestor_error {error : RLPError} {steps : Nat}
    (missing : ancestor tree hash steps = .error error) (more : Nat) :
    ancestor tree hash (steps + more) = .error error := by
  induction more with
  | zero => exact missing
  | succ more induction =>
      rw [← Nat.add_assoc, ancestor, induction]
      rfl

theorem IsLine.not_missing (line : IsLine tree hash hashes) :
    ¬Missing tree hash := by
  unfold Missing
  rw [line.ancestors 255 (by decide)]
  exact Bool.true_eq_false_eq_False

theorem missing_of_error {error : RLPError}
    (failed : ancestor tree hash 255 = .error error) : Missing tree hash := by
  unfold Missing
  rw [failed]
  rfl

/-- There is one line only. -/
theorem IsLine.unique (line : IsLine tree hash hashes)
    (line' : IsLine tree hash other) : hashes = other := by
  apply List.ext_getElem (line.length.trans line'.length.symm)
  intro steps inside inside'
  have same := (line.ancestors steps (line.length ▸ inside)).symm.trans
    (line'.ancestors steps (line.length ▸ inside))
  rw [List.getD_eq_getElem _ _ inside, List.getD_eq_getElem _ _ inside']
    at same
  exact Except.ok.inj same

omit [Hashing] in
theorem length_resize (hashes : List H256) : (resize hashes).length = 256 := by
  rw [resize, List.length_append, List.length_take, List.length_replicate]
  omega

/-! ## The loop -/

/-- The hashes up to an index are the ancestors. -/
structure Filled (tree : BlockTree) (hash : H256) (index : Nat)
    (hashes : List H256) : Prop where
  length : hashes.length = 256
  ancestors : ∀ steps ≤ index,
    ancestor tree hash steps = .ok (hashes.getD steps (zeroHash 32))

theorem Filled.head (filled : Filled tree hash index hashes) :
    hashes.head? = some hash := by
  have first := filled.ancestors 0 (Nat.zero_le index)
  cases hashes with
  | nil => cases filled.length
  | cons front rest => exact congrArg some (Except.ok.inj first).symm

theorem IsLine.filled (line : IsLine tree hash hashes) :
    Filled tree hash 255 hashes := by
  refine ⟨line.length, ?_⟩
  intro steps reached
  exact line.ancestors steps (by omega)

/-- One more ancestor is put down. -/
theorem Filled.set {parent : H256} (filled : Filled tree hash index hashes)
    (found : parentOf tree (hashes.getD index (zeroHash 32)) = .ok parent)
    (inside : index + 1 < 256) :
    Filled tree hash (index + 1) (hashes.set (index + 1) parent) := by
  refine ⟨by rw [List.length_set, filled.length], ?_⟩
  intro steps reached
  by_cases last : steps = index + 1
  · subst last
    have placed : (hashes.set (index + 1) parent).getD (index + 1)
        (zeroHash 32) = parent := by
      rw [List.getD_eq_getElem?_getD,
        List.getElem?_set_self (filled.length.symm ▸ inside)]
      rfl
    rw [ancestor, filled.ancestors index le_rfl, placed]
    exact found
  · rw [filled.ancestors steps (by omega), List.getD_eq_getElem?_getD,
      List.getD_eq_getElem?_getD, List.getElem?_set_ne (Ne.symm last)]

theorem Filled.start (hash : H256) (hashes : List H256) :
    Filled tree hash 0 ((resize hashes).set 0 hash) := by
  refine ⟨by rw [List.length_set, length_resize], ?_⟩
  intro steps none
  cases Nat.le_zero.mp none
  rw [List.getD_eq_getElem?_getD,
    List.getElem?_set_self (by rw [length_resize]; decide)]
  rfl

/-- The rest of the loop fills the list, or leaves it under its front. -/
theorem fill_cases {index rounds : Nat}
    (filled : Filled tree hash index hashes) (room : index + rounds = 255) :
    (∃ line, (fill tree rounds index).run ⟨hashes⟩ = .ok () ⟨line⟩ ∧
      IsLine tree hash line) ∨
    ∃ error spoiled, (fill tree rounds index).run ⟨hashes⟩ =
        .error error ⟨spoiled⟩ ∧
      ancestor tree hash 255 = .error error ∧
      spoiled.head? = some hash := by
  induction rounds generalizing index hashes with
  | zero =>
      refine .inl ⟨hashes, rfl, filled.length, ?_⟩
      intro steps inside
      exact filled.ancestors steps (by omega)
  | succ rounds induction =>
      cases found : parentOf tree (hashes.getD index (zeroHash 32)) with
      | ok parent =>
          have step : (fill tree (rounds + 1) index).run ⟨hashes⟩ =
              (fill tree rounds (index + 1)).run
                ⟨hashes.set (index + 1) parent⟩ := by
            simp only [fill, EStateM.run_bind, EStateM.run_get, found,
              EStateM.run_set]
          rw [step]
          exact induction (filled.set found (by omega)) (by omega)
      | error error =>
          have failed : (fill tree (rounds + 1) index).run ⟨hashes⟩ =
              .error error ⟨hashes⟩ := by
            simp only [fill, EStateM.run_bind, EStateM.run_get, found,
              EStateM.run_throw]
          have missing : ancestor tree hash (index + 1) = .error error := by
            rw [ancestor, filled.ancestors index le_rfl]
            exact found
          have last := ancestor_error missing rounds
          rw [show index + 1 + rounds = 255 by omega] at last
          exact .inr ⟨error, hashes, failed, last, filled.head⟩

/-! ## One call -/

/-- A list that is kept under the hash is returned as it is. -/
theorem answer_of_head (front : cache.lastHashes.head? = some hash) :
    answer tree hash cache = (.ok cache.lastHashes, cache) := by
  simp [answer, precedingHashes, front]

theorem head_new (hash : H256) :
    ({} : LastBlockHashes).lastHashes.head? ≠ some hash := by
  simp

/-- Without one the list is filled, or it cannot be. -/
theorem answer_cases (tree : BlockTree)
    (front : cache.lastHashes.head? ≠ some hash) :
    (∃ line, answer tree hash cache = (.ok line, ⟨line⟩) ∧
      IsLine tree hash line) ∨
    ∃ error spoiled, answer tree hash cache = (.error error, ⟨spoiled⟩) ∧
      ancestor tree hash 255 = .error error ∧
      spoiled.head? = some hash := by
  have start : Filled tree hash 0 ((resize cache.lastHashes).set 0 hash) :=
    .start hash cache.lastHashes
  rcases fill_cases start (Nat.zero_add 255) with
    ⟨line, ran, isLine⟩ | ⟨error, spoiled, ran, missing, head⟩
  · refine .inl ⟨line, ?_, isLine⟩
    simp [answer, precedingHashes, front, ran]
  · refine .inr ⟨error, spoiled, ?_, missing, head⟩
    simp [answer, precedingHashes, front, ran]

theorem fresh_of_line (line : IsLine tree hash hashes) :
    fresh tree hash = .ok hashes := by
  rcases answer_cases tree (head_new hash) with
    ⟨other, ran, isLine⟩ | ⟨error, spoiled, ran, missing, head⟩
  · rw [fresh, ran, line.unique isLine]
  · exact absurd (missing_of_error missing) line.not_missing

theorem answer_of_head_ne (front : cache.lastHashes.head? ≠ some hash) :
    (answer tree hash cache).1 = fresh tree hash := by
  rcases answer_cases tree front with
    ⟨line, ran, isLine⟩ | ⟨error, spoiled, ran, missing, head⟩
  · rw [ran, fresh_of_line isLine]
  · rcases answer_cases tree (head_new hash)
      with ⟨line, ran', isLine⟩ | ⟨error', spoiled', ran', missing', head'⟩
    · exact absurd (missing_of_error missing) isLine.not_missing
    · rw [missing] at missing'
      rw [fresh, ran, ran', Except.error.inj missing']

/-- What a new object returns is the line of ancestors. -/
theorem isLine_of_fresh (returned : fresh tree hash = .ok hashes) :
    IsLine tree hash hashes := by
  rcases answer_cases tree (head_new hash)
    with ⟨line, ran, isLine⟩ | ⟨error, spoiled, ran, missing, head⟩
  · rw [fresh, ran] at returned
    rw [← Except.ok.inj returned]
    exact isLine
  · rw [fresh, ran] at returned
    cases returned

theorem head_after_answer :
    (answer tree hash cache).2.lastHashes.head? = some hash := by
  by_cases front : cache.lastHashes.head? = some hash
  · rw [answer_of_head front]
    exact front
  · rcases answer_cases tree front with
      ⟨line, ran, isLine⟩ | ⟨error, spoiled, ran, missing, head⟩
    · rw [ran]
      exact isLine.filled.head
    · rw [ran]
      exact head

/-! ## Sequences of calls -/

/-- A call that cannot be answered is made again at once. -/
def Retries (tree : BlockTree) (calls : List Call) : Prop :=
  ∃ hash, Missing tree hash ∧
    [.precedingHashes hash, .precedingHashes hash] <:+: calls

/-- What is kept is a line, or what the last call has left of a failure. -/
def Follows (tree : BlockTree) (before : List Call)
    (cache : LastBlockHashes) : Prop :=
  ∀ hash, cache.lastHashes.head? = some hash →
    IsLine tree hash cache.lastHashes ∨
      (Missing tree hash ∧ before.getLast? = some (.precedingHashes hash))

theorem Follows.answer {before : List Call}
    (follows : Follows tree before cache) (hash : H256) :
    Follows tree (before ++ [.precedingHashes hash])
      (answer tree hash cache).2 := by
  intro head front
  rw [head_after_answer] at front
  cases front
  by_cases kept : cache.lastHashes.head? = some hash
  · rw [answer_of_head kept]
    rcases follows hash kept with line | ⟨missing, -⟩
    · exact .inl line
    · exact .inr ⟨missing, List.getLast?_concat⟩
  · rcases answer_cases tree kept with
      ⟨line, ran, isLine⟩ | ⟨error, spoiled, ran, missing, _⟩
    · rw [ran]
      exact .inl isLine
    · exact .inr ⟨missing_of_error missing, List.getLast?_concat⟩

/-- Where nothing is tried again the call is answered as by a new object. -/
theorem Follows.answer_eq {before calls : List Call}
    (follows : Follows tree before cache)
    (once : ¬Retries tree (before ++ .precedingHashes hash :: calls)) :
    (LastBlockHashes.answer tree hash cache).1 = fresh tree hash := by
  by_cases kept : cache.lastHashes.head? = some hash
  · rcases follows hash kept with line | ⟨missing, last⟩
    · rw [answer_of_head kept, fresh_of_line line]
    · obtain ⟨earlier, rfl⟩ := List.getLast?_eq_some_iff.mp last
      exact absurd ⟨hash, missing, earlier, calls, by simp⟩ once
  · exact answer_of_head_ne kept

theorem Follows.answers_eq {before calls : List Call}
    (follows : Follows tree before cache)
    (once : ¬Retries tree (before ++ calls)) :
    ∀ asked ∈ answers tree calls cache, asked.2 = fresh tree asked.1 := by
  induction calls generalizing before cache with
  | nil => simp [answers]
  | cons call calls induction =>
      have later : ¬Retries tree ((before ++ [call]) ++ calls) := by
        rwa [List.append_assoc, List.singleton_append]
      cases call with
      | precedingHashes hash =>
          intro asked member
          rcases List.mem_cons.mp member with rfl | member
          · exact follows.answer_eq once
          · exact induction (follows.answer hash) later asked member
      | clear =>
          have nothing : Follows tree (before ++ [.clear]) {} := by
            intro hash front
            cases front
          exact induction nothing later

theorem answers_append (front back : List Call) :
    answers tree (front ++ back) cache =
      answers tree front cache ++
        answers tree back (after tree front cache) := by
  induction front generalizing cache with
  | nil => rfl
  | cons call front induction =>
      cases call with
      | precedingHashes hash =>
          exact congrArg (List.cons _) induction
      | clear => exact induction

/-- Every call of a sequence is answered as by a new object, and with the line
of ancestors if it returns, if and only if no call that cannot be answered is
directly followed by the same call. -/
theorem transparent_iff (tree : BlockTree) (calls : List Call) :
    (∀ asked ∈ answers tree calls {}, asked.2 = fresh tree asked.1 ∧
      ∀ hashes, asked.2 = .ok hashes → IsLine tree asked.1 hashes) ↔
    ¬Retries tree calls := by
  constructor
  · rintro right ⟨hash, missing, front, back, rfl⟩
    have second := right
      (hash, (answer tree hash (answer tree hash
        (after tree front {})).2).1)
    rw [List.append_assoc, answers_append] at second
    have member := second (List.mem_append_right _
      (List.mem_cons_of_mem _ List.mem_cons_self))
    rw [answer_of_head head_after_answer] at member
    exact (member.2 _ rfl).not_missing missing
  · intro once asked member
    have follows : Follows tree [] {} := by
      intro hash front
      cases front
    have same := follows.answers_eq once asked member
    refine ⟨same, ?_⟩
    intro hashes returned
    rw [same] at returned
    exact isLine_of_fresh returned

end

section Sample

/-- Keccak-256 of the strings that are hashed. -/
def prunedSampleHashing : Hashing where
  sha3 bytes :=
    if bytes = [] then hashOfNat
      0xc5d2460186f7233c927e7db2dcc703c0e500b653ca82273b7bfad8045d85a470
    else BlockTree.treeSampleHashing.sha3 bytes
  trieRoot _ := zeroHash 32

attribute [local instance] prunedSampleHashing

/-- A chain whose second block is not in the database. -/
def prunedSample : BlockTree where
  genesisBlock := BlockTree.blockOf BlockTree.genesisSample
  genesisHash := BlockTree.genesisSampleHash
  blocks := Function.update (fun _ => none) BlockTree.thirdSampleHash
    (some (BlockTree.blockOf BlockTree.thirdSample))
  details := ⟨fun _ => none, fun _ => none⟩
  lastBlockHash := BlockTree.thirdSampleHash
  lastBlockNumber := 3

/-- A call that has thrown is made again. -/
def retrySample : List Call :=
  [.precedingHashes BlockTree.thirdSampleHash,
    .precedingHashes BlockTree.thirdSampleHash]

/-- The second call returns a list. -/
theorem retried_sample :
    ¬∀ asked ∈ answers prunedSample retrySample {},
      asked.2 = fresh prunedSample asked.1 ∧
        ∀ hashes, asked.2 = .ok hashes →
          IsLine prunedSample asked.1 hashes := by
  intro right
  have same : ∀ asked ∈ answers prunedSample retrySample {},
      asked.2 = fresh prunedSample asked.1 :=
    fun asked member => (right asked member).1
  exact absurd same (by decide +kernel)

end Sample

end LastBlockHashes

end Aecmio
