import Aecmio.State.Rollback

/-!
# States that lead back to a savepoint

`Returns` relates a state to the one at a savepoint: the log has grown, and
undoing what was added leads to accounts that look as they did.  Every step
and every rollback to a later savepoint keeps it.
-/

namespace Aecmio

open Traced Relation

variable [Hashing]

structure Returns (start : State) (new : List Change) (state : State) :
    Prop where
  db : state.db = start.db
  trie : state.trie = start.trie
  startNonce : state.accountStartNonce = start.accountStartNonce
  changeLog : state.changeLog = new ++ start.changeLog
  lives : ∀ addr, ⟨addr, .touch⟩ ∈ new →
    ∀ account, state.cache.lookup addr = some account →
      account.isAlive = true
  back : ∀ addr, SeenAlike start.db (start.seen addr)
    ((ChangeKind.undoAll (entriesOf new addr)
      (state.cache.lookup addr)).or (start.stored addr))

section

variable {start state state' middle : State} {new : List Change}
  {addr : Address} {account account' : Account} {kinds : List ChangeKind}

theorem Returns.refl (start : State) : Returns start [] start :=
  ⟨rfl, rfl, rfl, rfl, by simp, fun _ => SeenAlike.refl _⟩

theorem Returns.stored (returns : Returns start new state) (addr : Address) :
    state.stored addr = start.stored addr := by
  simp [State.stored, returns.trie]

/-- An address with entries is in the cache, and its oldest entry alone can
be an opening one. -/
theorem Returns.cached (returns : Returns start new state)
    (coherent : Coherent state) (addr : Address) :
    Rooted (entriesOf new addr) ∧
      (entriesOf new addr ≠ [] → (state.cache.lookup addr).isSome) := by
  have sound := coherent.sound addr
  rw [returns.changeLog, entriesOf_append] at sound
  cases found : state.cache.lookup addr with
  | none =>
      rw [found] at sound
      have empty : entriesOf new addr = [] :=
        (List.append_eq_nil_iff.mp sound).1
      rw [empty]
      exact ⟨trivial, fun nonempty => absurd rfl nonempty⟩
  | some account =>
      rw [found] at sound
      exact ⟨(SoundLog.rooted sound).of_append, fun _ => rfl⟩

theorem Returns.quiet (returns : Returns start new state)
    (coherent : Coherent state) (quiet : Quiet state state') :
    Returns start new state' := by
  have later : Coherent state' := coherent.quiet quiet
  have log : state'.changeLog = new ++ start.changeLog :=
    quiet.changeLog.trans returns.changeLog
  have cached' : ∀ addr, entriesOf new addr ≠ [] →
      (state'.cache.lookup addr).isSome := by
    intro addr nonempty
    have sound := later.sound addr
    rw [log, entriesOf_append] at sound
    cases found : state'.cache.lookup addr with
    | none =>
        rw [found] at sound
        exact absurd (List.append_eq_nil_iff.mp sound).1 nonempty
    | some account => rfl
  refine ⟨quiet.db.trans returns.db, quiet.trie.trans returns.trie,
    quiet.startNonce.trans returns.startNonce, log, ?_, ?_⟩
  · intro addr touch account' found
    have nonempty : entriesOf new addr ≠ [] :=
      List.ne_nil_of_mem (mem_entriesOf.mpr touch)
    obtain ⟨account, before⟩ := Option.isSome_iff_exists.mp
      ((returns.cached coherent addr).2 nonempty)
    have alike := coherent.seenAlike quiet addr
    simp only [State.seen, before, found, Option.some_or] at alike
    cases alike with
    | some alike =>
        rw [← alike.isAlive]
        exact returns.lives addr touch account before
  · intro addr
    obtain ⟨rooted, cached⟩ := returns.cached coherent addr
    have alike := coherent.seenAlike quiet addr
    unfold State.seen at alike
    rw [quiet.stored, returns.stored, returns.db] at alike
    exact (returns.back addr).trans (SeenAlike.undoAll rooted
      (fun nonempty => ⟨cached nonempty, cached' addr nonempty⟩) alike)

/-- A change of one account whose entries lead back to an account like the
one before. -/
theorem Returns.edit (returns : Returns start new state)
    (coherent : Coherent state)
    (touches : .touch ∈ kinds → account'.isAlive = true)
    (alive : ∀ account, state.cache.lookup addr = some account →
      account'.isAlive = account.isAlive)
    (back : SeenAlike state.db
      ((state.cache.lookup addr).or (state.stored addr))
      ((ChangeKind.undoAll kinds (some account')).or (state.stored addr)))
    (cached : entriesOf new addr ≠ [] →
      (ChangeKind.undoAll kinds (some account')).isSome) :
    Returns start (kinds.map (Change.mk addr) ++ new)
      (state.edit addr account' kinds) := by
  refine ⟨returns.db, returns.trie, returns.startNonce, ?_, ?_, ?_⟩
  · simp [State.edit, returns.changeLog]
  · intro other touch found here
    rw [State.lookup_edit] at here
    rcases List.mem_append.mp touch with now | before
    · obtain ⟨kind, noted, same⟩ := List.mem_map.mp now
      obtain ⟨rfl, rfl⟩ := Change.mk.inj same
      rw [if_pos rfl] at here
      obtain rfl := Option.some.inj here
      exact touches noted
    · by_cases same : addr = other
      · subst same
        rw [if_pos rfl] at here
        obtain rfl := Option.some.inj here
        have nonempty : entriesOf new addr ≠ [] :=
          List.ne_nil_of_mem (mem_entriesOf.mpr before)
        obtain ⟨account, old⟩ := Option.isSome_iff_exists.mp
          ((returns.cached coherent addr).2 nonempty)
        rw [alive account old]
        exact returns.lives addr before account old
      · rw [if_neg same] at here
        exact returns.lives other before found here
  · intro other
    rw [State.lookup_edit, entriesOf_append, entriesOf_map]
    by_cases same : addr = other
    · subst same
      rw [if_pos rfl, if_pos rfl, ChangeKind.undoAll_append]
      obtain ⟨rooted, before⟩ := returns.cached coherent addr
      rw [returns.db, returns.stored] at back
      exact (returns.back addr).trans (SeenAlike.undoAll rooted
        (fun nonempty => ⟨before nonempty, cached nonempty⟩) back)
    · rw [if_neg same, if_neg same]
      exact returns.back other

theorem Returns.step (returns : Returns start new state)
    (coherent : Coherent state) (step : Step addr state state') :
    ∃ new', Returns start new' state' := by
  cases step with
  | quiet quiet => exact ⟨new, returns.quiet coherent quiet⟩
  | @edited middle account account' kinds quiet found edit =>
      have coherent' := coherent.quiet quiet
      have returns' := returns.quiet coherent quiet
      obtain ⟨undone, ran, alike⟩ :=
        edit.undone (coherent'.usable addr account found)
      refine ⟨_, returns'.edit coherent' ?_ ?_ ?_ ?_⟩
      · intro touch
        -- Only a clean account is touched, and a clean account is stored.
        have clean : account.isUnchanged = true := by
          cases edit with
          | addBalance amount =>
              unfold balanceKinds touchKinds at touch
              split at touch <;> split at touch <;>
                simp_all [Account.isDirty]
          | setNonce => simp at touch
          | setStorage => simp at touch
          | setCode => simp at touch
        have sound := coherent'.sound addr
        rw [found] at sound
        obtain ⟨original, stored, same⟩ := SoundLog.clean sound clean
        rw [edit.isAlive, same.isAlive]
        rcases coherent'.complete.stored addr with ⟨_, absent⟩ |
          ⟨fields, _, present, _, _⟩
        · rw [absent] at stored
          cases stored
        · obtain rfl := Option.some.inj (present.symm.trans stored)
          rfl
      · intro before same
        obtain rfl := Option.some.inj (found.symm.trans same)
        exact edit.isAlive
      · rw [found, ran]
        exact .some alike
      · intro _
        rw [ran]
        rfl
  | @created middle nonce balance quiet missing absent =>
      have coherent' := coherent.quiet quiet
      have returns' := returns.quiet coherent quiet
      have erased : ChangeKind.undoAll (balanceKinds balance ++ [.create])
          (some (.created nonce balance)) = none := by
        rw [ChangeKind.undoAll_append]
        rfl
      have edited : Returns start
          ((balanceKinds balance ++ [ChangeKind.create]).map
            (Change.mk addr) ++ new)
          (middle.edit addr (.created nonce balance)
            (balanceKinds balance ++ [.create])) := by
        refine returns'.edit coherent' (fun _ => rfl) ?_ ?_ ?_
        · intro account found
          rw [missing] at found
          cases found
        · rw [erased, missing]
          exact SeenAlike.refl _
        · intro nonempty
          have cached := (returns'.cached coherent' addr).2 nonempty
          rw [missing] at cached
          cases cached
      exact ⟨_, { edited with }⟩

theorem Returns.steps (returns : Returns start new state)
    (coherent : Coherent state) (steps : Steps state state') :
    ∃ new', Returns start new' state' := by
  induction steps with
  | refl => exact ⟨new, returns⟩
  | tail before step induction =>
      obtain ⟨new', returns'⟩ := induction
      obtain ⟨addr, step⟩ := step
      exact returns'.step (coherent.steps before) step

/-- A rollback to a savepoint taken since. -/
theorem Returns.rollback (returns : Returns start new state)
    (coherent : Coherent state) {savepoint : Nat}
    (later : start.savepoint ≤ savepoint)
    (within : savepoint ≤ state.savepoint) :
    Coherent (final (State.rollback savepoint) state) ∧
      ∃ kept, kept.length + start.savepoint = savepoint ∧
        Returns start kept (final (State.rollback savepoint) state) := by
  obtain ⟨undone, rest, split, length, _, done⟩ :=
    State.final_rollback within
  -- The entries of the start are the oldest of those that stay.
  obtain ⟨kept, rfl⟩ : ∃ kept, rest = kept ++ start.changeLog := by
    have suffix : start.changeLog <:+ undone ++ rest := by
      rw [← split, returns.changeLog]
      exact List.suffix_append new _
    exact (List.suffix_of_suffix_length_le suffix
      (List.suffix_append undone rest) (by
        rw [length]
        exact later)).imp fun _ same => same.symm
  have together : new = undone ++ kept := by
    have same : new ++ start.changeLog =
        (undone ++ kept) ++ start.changeLog := by
      rw [← returns.changeLog, split, List.append_assoc]
    exact List.append_cancel_right same
  have lives : ∀ addr, ⟨addr, .touch⟩ ∈ undone →
      ∀ account, state.cache.lookup addr = some account →
        account.isAlive = true := by
    intro addr touch
    exact returns.lives addr (by simp [together, touch])
  refine ⟨coherent.rolledBack split lives done, kept, ?_, ?_⟩
  · rw [← length]
    simp [State.savepoint]
  · refine ⟨done.db.trans returns.db, done.trie.trans returns.trie,
      done.startNonce.trans returns.startNonce, done.changeLog, ?_, ?_⟩
    · intro addr touch account' found
      rw [done.cache] at found
      obtain ⟨_, account, before, alive⟩ :=
        (coherent.undoAll split (lives addr)).2 account' found
      rw [← alive]
      exact returns.lives addr (by simp [together, touch]) account before
    · intro addr
      rw [done.cache, ← ChangeKind.undoAll_append, ← entriesOf_append,
        ← together]
      exact returns.back addr

end

end Aecmio
