import Aecmio.Rlp.Iteration

/-!
# The cache of list indexing

`operator[]` keeps the index, the end and the bytes of the item it has found
last, and goes on from there.  An access that throws leaves the bytes behind
the last item in the cache, next to the index of that item.
-/

namespace Aecmio

namespace RLP

/-- The cache after an access, also if it has thrown. -/
def cacheAfter {α : Type} : EStateM.Result RLPError IndexCache α → IndexCache
  | .ok _ cache => cache
  | .error _ cache => cache

/-- The cache after a sequence of accesses whose exceptions are caught. -/
def replay (view : Bytes) (cache : IndexCache) (accesses : List Nat) :
    IndexCache :=
  accesses.foldl
    (fun cache position => cacheAfter ((index view position).run cache)) cache

/-- Every access has the outcome it has on a fresh copy. -/
def Transparent (view : Bytes) (accesses : List Nat) : Prop :=
  ∀ front position back, accesses = front ++ position :: back →
    outcome ((index view position).run (replay view {} front)) =
      at_ view position

/-- The last index, `(size_t)-1`. -/
def lastPosition : Nat := sizeTRange - 1

/-- The payload has `last + 1` items, and then bytes that are no item. -/
def MalformedAfter (view : Bytes) (last : Nat) : Prop :=
  ∃ (parts : List Bytes) (bad : Bytes) (error : RLPError),
    payload view = .ok (parts.flatten ++ bad) ∧
      (∀ part ∈ parts, Part part) ∧ parts.length = last + 1 ∧
      bad ≠ [] ∧ sizeAsEncoded bad = .error error

/-- The item `last` is not asked for right after one behind it, and
`lastPosition` only before all other positions. -/
structure Spares (last : Nat) (accesses : List Nat) : Prop where
  last : ∀ front position back, accesses = front ++ position :: last :: back →
    position ≤ last ∨ position = lastPosition
  end_ : ∀ front back, accesses = front ++ lastPosition :: back →
    ∀ position ∈ front, position = lastPosition

section

variable {view content rest bad : Bytes} {parts : List Bytes}
  {cache : IndexCache} {size position : Nat} {error : RLPError}

/-! ## Parts and positions -/

theorem nthPart_append (areParts : ∀ part ∈ parts, Part part)
    (position : Nat) (rest : Bytes) :
    nthPart (parts.length + position) (parts.flatten ++ rest) =
      nthPart position rest := by
  induction parts with
  | nil => rw [List.length_nil, Nat.zero_add, List.flatten_nil, List.nil_append]
  | cons part others induction =>
      have isPart := areParts part List.mem_cons_self
      have size := isPart.sizeAsEncoded (others.flatten ++ rest)
      have positive := isPart.length_pos
      have below := induction
        (fun other member => areParts other (List.mem_cons_of_mem _ member))
      have rounds : (part :: others).length + position =
          others.length + position + 1 := by
        rw [List.length_cons]
        omega
      rw [rounds, List.flatten_cons, List.append_assoc]
      simp only [nthPart, size, bind, Except.bind]
      rw [if_neg (by omega), List.drop_left, below]

theorem nthPart_malformed (fails : sizeAsEncoded bad = .error error)
    (position : Nat) : nthPart position bad = .error error := by
  cases position <;> simp [nthPart, fails, bind, Except.bind]

/-! ## Caches -/

/-- The cache stands on an item of the payload or at its end. -/
structure Cached (content : Bytes) (parts : List Bytes) (rest : Bytes)
    (size : Nat) (cache : IndexCache) : Prop where
  areParts : ∀ part ∈ parts, Part part
  split : content = parts.flatten ++ rest
  accepted : sizeAsEncoded rest = .ok size
  lastIndex : cache.lastIndex = parts.length
  lastEnd : cache.lastEnd = parts.flatten.length + size
  lastItem : cache.lastItem = rest.take size

/-- An access has thrown behind the item that the cache has the index of. -/
structure Stuck (content : Bytes) (parts : List Bytes) (bad : Bytes)
    (error : RLPError) (cache : IndexCache) : Prop where
  areParts : ∀ part ∈ parts, Part part
  split : content = parts.flatten ++ bad
  nonempty : bad ≠ []
  fails : sizeAsEncoded bad = .error error
  lastIndex : cache.lastIndex + 1 = parts.length
  lastEnd : cache.lastEnd = parts.flatten.length
  lastItem : cache.lastItem = bad

theorem Cached.lastItem_eq (cached : Cached content parts rest size cache) :
    cache = ⟨parts.length, parts.flatten.length + size, rest.take size⟩ := by
  rw [← cached.lastIndex, ← cached.lastEnd, ← cached.lastItem]

/-- The loop of `operator[]` and the construction of its result. -/
def finish (view : Bytes) (rounds : Nat) : Indexing Bytes := do
  advance view rounds
  lift (construct (← get).lastItem .throwIfTooSmall)

theorem index_ahead (behind : cache.lastIndex ≤ position) :
    (index view position).run cache =
      (finish view (position - cache.lastIndex)).run cache := by
  have notBack : ¬ position < cache.lastIndex := Nat.not_lt.mpr behind
  simp only [index, EStateM.run_bind, EStateM.run_get, notBack, if_false,
    EStateM.run_pure, finish]

theorem index_back (payload : RLP.payload view = .ok content)
    (bounded : content.length < sizeTRange - 1)
    (accepted : sizeAsEncoded content = .ok size)
    (back : position < cache.lastIndex) :
    (index view position).run cache = (finish view position).run
      { lastIndex := 0, lastEnd := size, lastItem := content.take size } := by
  have fits := (sizeAsEncoded_ok accepted).2
  have taken : cropped content 0 size = content.take size := by
    rw [cropped_eq bounded (by omega), List.drop_zero]
  simp only [index, EStateM.run_bind, EStateM.run_get, back, if_true,
    payload, lift, EStateM.run_pure, accepted, EStateM.run_modify, taken,
    Nat.sub_zero, finish]

theorem index_back_malformed (payload : RLP.payload view = .ok content)
    (fails : sizeAsEncoded content = .error error)
    (back : position < cache.lastIndex) :
    (index view position).run cache = .error error cache := by
  simp only [index, EStateM.run_bind, EStateM.run_get, back, if_true,
    payload, lift, EStateM.run_pure, fails]
  rfl

theorem index_back_null (fails : RLP.payload view = .error error)
    (back : position < cache.lastIndex) :
    (index view position).run cache = .error error cache := by
  simp only [index, EStateM.run_bind, EStateM.run_get, back, if_true,
    fails, lift]
  rfl

/-- Past the end of the items the cache is left alone. -/
theorem finish_empty (none : cache.lastItem = []) (rounds : Nat) :
    (finish view rounds).run cache = .ok [] cache := by
  cases rounds with
  | zero =>
      simp only [finish, advance, EStateM.run_bind, EStateM.run_pure,
        EStateM.run_get, none]
      rfl
  | succ rounds =>
      simp only [finish, advance, EStateM.run_bind, EStateM.run_pure,
        EStateM.run_get, none, List.isEmpty_nil, if_true]
      rfl

theorem finish_zero (accepted : construct cache.lastItem .throwIfTooSmall =
    .ok cache.lastItem) :
    (finish view 0).run cache = .ok cache.lastItem cache := by
  simp only [finish, advance, EStateM.run_bind, EStateM.run_pure,
    EStateM.run_get, accepted, lift]

theorem finish_next (payload : RLP.payload view = .ok content)
    (some : cache.lastItem ≠ [])
    (remaining : croppedFrom content cache.lastEnd = rest)
    (bounded : rest.length < sizeTRange - 1)
    (accepted : sizeAsEncoded rest = .ok size) (rounds : Nat) :
    (finish view (rounds + 1)).run cache = (finish view rounds).run
      { lastIndex := cache.lastIndex + 1, lastEnd := cache.lastEnd + size,
        lastItem := rest.take size } := by
  have fits := (sizeAsEncoded_ok accepted).2
  have taken : cropped rest 0 size = rest.take size := by
    rw [cropped_eq bounded (by omega), List.drop_zero]
  have ended : (rest.take size).length = size := by
    rw [List.length_take]
    omega
  have nonempty : cache.lastItem.isEmpty = false := by simpa using some
  simp only [finish, advance, EStateM.run_bind, EStateM.run_get, nonempty,
    payload, lift, EStateM.run_pure, EStateM.run_modify, remaining, accepted,
    taken, ended, Bool.false_eq_true, if_false]

theorem finish_malformed (payload : RLP.payload view = .ok content)
    (some : cache.lastItem ≠ [])
    (remaining : croppedFrom content cache.lastEnd = rest)
    (fails : sizeAsEncoded rest = .error error) (rounds : Nat) :
    (finish view (rounds + 1)).run cache =
      .error error { cache with lastItem := rest } := by
  have nonempty : cache.lastItem.isEmpty = false := by simpa using some
  simp only [finish, advance, EStateM.run_bind, EStateM.run_get, nonempty,
    payload, lift, EStateM.run_pure, EStateM.run_modify, remaining, fails,
    Bool.false_eq_true, if_false]
  rfl

/-! ## Accesses -/

theorem Cached.remaining (cached : Cached content parts rest size cache)
    {part after : Bytes} (whole : rest = part ++ after)
    (length : part.length = size) :
    croppedFrom content cache.lastEnd = after := by
  rw [cached.lastEnd, croppedFrom_eq]
  · rw [cached.split, whole, ← length, ← List.append_assoc,
      ← List.length_append, List.drop_left]
  · simp only [cached.split, whole, List.length_append]
    omega

/-- From an item of the payload the loop finds the item some rounds on, or
throws and is stuck in front of what it cannot read. -/
theorem finish_cached (payload : RLP.payload view = .ok content)
    (bounded : content.length < sizeTRange - 1)
    (cached : Cached content parts rest size cache) (rounds : Nat) :
    (∃ part parts' rest' size' after,
      (finish view rounds).run cache = .ok part after ∧
        nthPart rounds rest = .ok part ∧
        Cached content parts' rest' size' after ∧
        (parts'.length = parts.length + rounds ∨ rest' = [])) ∨
    ∃ error parts' bad after,
      (finish view rounds).run cache = .error error after ∧
        nthPart rounds rest = .error error ∧
        Stuck content parts' bad error after := by
  induction rounds generalizing parts rest size cache with
  | zero =>
      have accepted := construct_take cached.accepted
      rw [← cached.lastItem] at accepted
      refine .inl ⟨cache.lastItem, parts, rest, size, cache,
        finish_zero accepted, ?_, cached, .inl rfl⟩
      simp [nthPart, cached.accepted, cached.lastItem, bind, Except.bind, pure,
        Except.pure]
  | succ rounds induction =>
      by_cases empty : rest = []
      · have none : cache.lastItem = [] := by
          rw [cached.lastItem, empty, List.take_nil]
        refine .inl ⟨[], parts, rest, size, cache, finish_empty none _, ?_,
          cached, .inr empty⟩
        rw [empty, nthPart_nil]
      · obtain ⟨part, after, isPart, whole, length⟩ :=
          part_of_size empty cached.accepted
        have positive := isPart.length_pos
        have some : cache.lastItem ≠ [] := by
          rw [cached.lastItem, whole, ← length, List.take_left]
          exact isPart.ne_nil
        have remaining := cached.remaining whole length
        have areParts : ∀ other ∈ parts ++ [part], Part other := by
          intro other member
          rcases List.mem_append.mp member with inParts | here
          · exact cached.areParts other inParts
          · rw [List.mem_singleton.mp here]
            exact isPart
        have split : content = (parts ++ [part]).flatten ++ after := by
          rw [cached.split, whole]
          simp
        have moved : nthPart (rounds + 1) rest = nthPart rounds after := by
          simp only [nthPart, cached.accepted, bind, Except.bind]
          rw [if_neg (by omega), whole, ← length, List.drop_left]
        rw [moved]
        cases next : sizeAsEncoded after with
        | error error =>
            have nonempty : after ≠ [] := by
              rintro rfl
              cases next
            refine .inr ⟨error, parts ++ [part], after,
              { cache with lastItem := after },
              finish_malformed payload some remaining next rounds,
              nthPart_malformed next rounds,
              ⟨areParts, split, nonempty, next, ?_, ?_, rfl⟩⟩
            · rw [List.length_append, List.length_singleton]
              exact congrArg (· + 1) cached.lastIndex
            · have ended := cached.lastEnd
              simp only [List.flatten_append, List.flatten_singleton,
                List.length_append, length]
              exact ended
        | ok size' =>
            have shorter : after.length < sizeTRange - 1 := by
              have total := congrArg List.length split
              rw [List.length_append] at total
              omega
            have stepped := finish_next payload some remaining shorter next
              rounds
            have there : Cached content (parts ++ [part]) after size'
                { lastIndex := cache.lastIndex + 1,
                  lastEnd := cache.lastEnd + size',
                  lastItem := after.take size' } := by
              refine ⟨areParts, split, next, ?_, ?_, rfl⟩
              · rw [List.length_append, List.length_singleton,
                  cached.lastIndex]
              · rw [cached.lastEnd]
                simp [length]
            have counted : (parts ++ [part]).length + rounds =
                parts.length + (rounds + 1) := by
              rw [List.length_append, List.length_singleton]
              omega
            rw [stepped, ← counted]
            exact induction there

/-- The access finds what a fresh copy finds, and the cache stands on an item
or is stuck. -/
def Sound (content : Bytes) (position : Nat)
    (result : EStateM.Result RLPError IndexCache Bytes) : Prop :=
  (∃ part parts rest size after, result = .ok part after ∧
    nthPart position content = .ok part ∧
    Cached content parts rest size after) ∨
  ∃ error parts bad after, result = .error error after ∧
    nthPart position content = .error error ∧
    Stuck content parts bad error after

theorem Sound.outcome {result : EStateM.Result RLPError IndexCache Bytes}
    (sound : Sound content position result) :
    RLP.outcome result = nthPart position content := by
  rcases sound with ⟨part, -, -, -, after, rfl, found, -⟩ |
    ⟨error, -, -, after, rfl, found, -⟩
  · exact found.symm
  · exact found.symm

/-- From the first item on. -/
theorem index_start (payload : RLP.payload view = .ok content)
    (bounded : content.length < sizeTRange - 1)
    (accepted : sizeAsEncoded content = .ok size)
    (back : position < cache.lastIndex) :
    Sound content position ((index view position).run cache) := by
  have start : Cached content [] content size
      { lastIndex := 0, lastEnd := size, lastItem := content.take size } :=
    ⟨nofun, rfl, accepted, rfl, (Nat.zero_add size).symm, rfl⟩
  rw [index_back payload bounded accepted back]
  rcases finish_cached payload bounded start position with
    ⟨part, parts, rest, size', after, ran, found, cached, -⟩ |
    ⟨error, parts, bad, after, ran, found, stuck⟩
  · exact .inl ⟨part, parts, rest, size', after, ran, found, cached⟩
  · exact .inr ⟨error, parts, bad, after, ran, found, stuck⟩

theorem readable_of_parts (areParts : ∀ part ∈ parts, Part part)
    (some : parts ≠ []) (split : content = parts.flatten ++ rest) :
    ∃ size, sizeAsEncoded content = .ok size := by
  obtain ⟨part, others, rfl⟩ := List.exists_cons_of_ne_nil some
  have isPart := areParts part List.mem_cons_self
  rw [split, List.flatten_cons, List.append_assoc]
  exact ⟨_, isPart.sizeAsEncoded _⟩

theorem index_cached (payload : RLP.payload view = .ok content)
    (bounded : content.length < sizeTRange - 1)
    (cached : Cached content parts rest size cache) (position : Nat) :
    Sound content position ((index view position).run cache) := by
  by_cases back : position < cache.lastIndex
  · have some : parts ≠ [] := by
      rintro rfl
      rw [cached.lastIndex] at back
      cases back
    obtain ⟨first, accepted⟩ :=
      readable_of_parts cached.areParts some cached.split
    exact index_start payload bounded accepted back
  · have behind : cache.lastIndex ≤ position := Nat.le_of_not_lt back
    obtain ⟨rounds, same⟩ := Nat.exists_eq_add_of_le behind
    have ahead : position - cache.lastIndex = rounds := by omega
    have onwards : nthPart position content = nthPart rounds rest := by
      rw [same, cached.lastIndex, cached.split,
        nthPart_append cached.areParts]
    rw [index_ahead behind, ahead, Sound, onwards]
    rcases finish_cached payload bounded cached rounds with
      ⟨part, parts', rest', size', after, ran, found, there, -⟩ |
      ⟨error, parts', bad, after, ran, found, stuck⟩
    · exact .inl ⟨part, parts', rest', size', after, ran, found, there⟩
    · exact .inr ⟨error, parts', bad, after, ran, found, stuck⟩

theorem Stuck.some (stuck : Stuck content parts bad error cache) :
    parts ≠ [] := by
  rintro rfl
  have counted := stuck.lastIndex
  cases counted

/-- A stuck cache gets going at a lower index and throws at a higher one. -/
theorem index_stuck (payload : RLP.payload view = .ok content)
    (bounded : content.length < sizeTRange - 1)
    (stuck : Stuck content parts bad error cache)
    (other : position ≠ cache.lastIndex) :
    Sound content position ((index view position).run cache) := by
  by_cases back : position < cache.lastIndex
  · obtain ⟨first, accepted⟩ :=
      readable_of_parts stuck.areParts stuck.some stuck.split
    exact index_start payload bounded accepted back
  · obtain ⟨rounds, same⟩ : ∃ rounds,
        position = cache.lastIndex + (rounds + 1) :=
      ⟨position - cache.lastIndex - 1, by omega⟩
    have ahead : position - cache.lastIndex = rounds + 1 := by omega
    have some : cache.lastItem ≠ [] := by
      rw [stuck.lastItem]
      exact stuck.nonempty
    have remaining : croppedFrom content cache.lastEnd = bad := by
      rw [stuck.lastEnd, stuck.split, croppedFrom_eq, List.drop_left]
      rw [List.length_append]
      exact Nat.le_add_right _ _
    have failed := finish_malformed payload some remaining stuck.fails rounds
    refine .inr ⟨error, parts, bad, { cache with lastItem := bad }, ?_, ?_,
      ⟨stuck.areParts, stuck.split, stuck.nonempty, stuck.fails,
        stuck.lastIndex, stuck.lastEnd, rfl⟩⟩
    · rw [index_ahead (by omega), ahead]
      exact failed
    · have counted : position = parts.length + rounds := by
        rw [← stuck.lastIndex]
        omega
      rw [counted, stuck.split, nthPart_append stuck.areParts,
        nthPart_malformed stuck.fails]

theorem construct_malformed (fails : sizeAsEncoded bad = .error error) :
    construct bad .throwIfTooSmall = .error error := by
  cases built : construct bad .throwIfTooSmall with
  | error other =>
      rw [sizeAsEncoded, built] at fails
      exact congrArg Except.error (Except.error.inj fails)
  | ok view =>
      rw [construct_throwIfTooSmall_eq] at built
      cases size : actualSize bad with
      | error other =>
          rw [size] at built
          cases built
      | ok total =>
          rw [size] at built
          by_cases small : bad.length < total
          · simp [small, bind, Except.bind] at built
          · have kept : bad = view := by
              have returned : (.ok bad : Except RLPError Bytes) = .ok view := by
                simpa [small, bind, Except.bind] using built
              exact Except.ok.inj returned
            rw [sizeAsEncoded, construct_throwIfTooSmall_eq, size] at fails
            simp [small, size, bind, Except.bind] at fails

/-- A stuck cache throws at its own index. -/
theorem index_stuck_here (stuck : Stuck content parts bad error cache) :
    (index view cache.lastIndex).run cache = .error error cache := by
  have failed := construct_malformed stuck.fails
  rw [← stuck.lastItem] at failed
  rw [index_ahead (Nat.le_refl _), Nat.sub_self]
  simp only [finish, advance, EStateM.run_bind, EStateM.run_pure,
    EStateM.run_get, failed, lift]
  rfl

/-- `lastPosition` is not found on a fresh copy. -/
theorem index_fresh_last :
    (index view lastPosition).run {} = .ok [] {} := by
  rw [index_ahead (show ({} : IndexCache).lastIndex ≤ lastPosition from
    Nat.le_refl _)]
  exact finish_empty rfl _

theorem at_last (view : Bytes) : at_ view lastPosition = .ok [] := by
  rw [at_eq_outcome, index_fresh_last]
  rfl

theorem Cached.not_stuck (cached : Cached content parts rest size cache)
    {others : List Bytes} (stuck : Stuck content others bad error cache) :
    False := by
  have built := construct_take cached.accepted
  rw [← cached.lastItem, stuck.lastItem, construct_malformed stuck.fails]
    at built
  cases built

/-! ## Sequences of accesses -/

theorem eq_last (below : position < sizeTRange)
    (late : ¬ position < lastPosition) : position = lastPosition := by
  unfold lastPosition at late ⊢
  omega

theorem replay_concat (front : List Nat) (position : Nat) :
    replay view cache (front ++ [position]) =
      cacheAfter ((index view position).run (replay view cache front)) := by
  rw [replay, List.foldl_append]
  rfl

/-- Where every access throws and leaves the cache fresh, the cache makes no
difference. -/
theorem transparent_of_fresh
    (stays : ∀ position < lastPosition, ∃ error,
      (index view position).run {} = .error error {})
    (accesses : List Nat) (inRange : ∀ position ∈ accesses,
      position < sizeTRange) : Transparent view accesses := by
  have fresh : ∀ front : List Nat, (∀ position ∈ front,
      position < sizeTRange) → replay view {} front = {} := by
    intro front
    induction front using List.reverseRecOn with
    | nil => exact fun _ => rfl
    | append_singleton front position induction =>
        intro below
        rw [replay_concat, induction fun other member =>
          below other (List.mem_append_left _ member)]
        by_cases early : position < lastPosition
        · obtain ⟨error, ran⟩ := stays position early
          rw [ran]
          rfl
        · rw [eq_last (below position (by simp)) early, index_fresh_last]
          rfl
  intro front position back split
  rw [fresh front fun other member => inRange other (by simp [split, member]),
    at_eq_outcome]

/-- The cache of a payload without malformed bytes is never stuck. -/
theorem transparent_of_parts (payload : RLP.payload view = .ok parts.flatten)
    (bounded : parts.flatten.length < sizeTRange - 1)
    (areParts : ∀ part ∈ parts, Part part) (accesses : List Nat)
    (inRange : ∀ position ∈ accesses, position < sizeTRange) :
    Transparent view accesses := by
  have found : ∀ position, ∃ part,
      nthPart position parts.flatten = .ok part := by
    intro position
    by_cases inside : position < parts.length
    · have here := nthPart_parts areParts [] inside
      rw [List.append_nil] at here
      exact ⟨_, here⟩
    · exact ⟨_, nthPart_beyond areParts (Nat.le_of_not_lt inside)⟩
  have readable : ∃ size, sizeAsEncoded parts.flatten = .ok size := by
    by_cases none : parts = []
    · subst none
      exact ⟨0, rfl⟩
    · exact readable_of_parts areParts none (List.append_nil _).symm
  have walked : ∀ {position result},
      Sound parts.flatten position result → ∃ others rest size,
        Cached parts.flatten others rest size (cacheAfter result) := by
    intro position result sound
    rcases sound with ⟨-, others, rest, size, after, rfl, -, cached⟩ |
      ⟨error, -, -, -, -, fails, -⟩
    · exact ⟨others, rest, size, cached⟩
    · obtain ⟨part, some⟩ := found position
      rw [some] at fails
      cases fails
  have held : ∀ front : List Nat, (∀ position ∈ front,
      position < sizeTRange) → replay view {} front = {} ∨
        ∃ others rest size,
          Cached parts.flatten others rest size (replay view {} front) := by
    intro front
    induction front using List.reverseRecOn with
    | nil => exact fun _ => .inl rfl
    | append_singleton front position induction =>
        intro below
        rw [replay_concat]
        rcases induction fun other member =>
          below other (List.mem_append_left _ member) with
          fresh | ⟨others, rest, size, cached⟩
        · rw [fresh]
          by_cases early : position < lastPosition
          · obtain ⟨size, accepted⟩ := readable
            exact .inr (walked (index_start payload bounded accepted early))
          · rw [eq_last (below position (by simp)) early, index_fresh_last]
            exact .inl rfl
        · exact .inr (walked (index_cached payload bounded cached position))
  intro front position back split
  rcases held front fun other member =>
    inRange other (by simp [split, member]) with
    fresh | ⟨others, rest, size, cached⟩
  · rw [fresh, at_eq_outcome]
  · rw [(index_cached payload bounded cached position).outcome]
    by_cases early : position < lastPosition
    · exact (at_eq payload bounded early).symm
    · have few := length_le_flatten areParts
      rw [eq_last (inRange position (by simp [split])) early, at_last]
      apply nthPart_beyond areParts
      unfold lastPosition
      omega

/-! ## A malformed payload -/

/-- Bytes that are no item follow `last + 1` items. -/
structure Ends (view content : Bytes) (last : Nat) : Prop where
  payload : RLP.payload view = .ok content
  bounded : content.length < sizeTRange - 1
  some : ∀ position ≤ last, ∃ part, nthPart position content = .ok part
  none : ∀ position, last < position →
    ∃ error, nthPart position content = .error error
  readable : ∃ size, sizeAsEncoded content = .ok size
  early : last < lastPosition

namespace Ends

variable {last : Nat}

theorem of_parts (payload : RLP.payload view = .ok (parts.flatten ++ bad))
    (bounded : (parts.flatten ++ bad).length < sizeTRange - 1)
    (areParts : ∀ part ∈ parts, Part part) (counted : parts.length = last + 1)
    (fails : sizeAsEncoded bad = .error error) :
    Ends view (parts.flatten ++ bad) last := by
  have nonempty : parts ≠ [] := by
    rintro rfl
    cases counted
  refine ⟨payload, bounded, ?_, ?_,
    readable_of_parts areParts nonempty rfl, ?_⟩
  · intro position low
    exact ⟨_, nthPart_parts areParts bad (show position < parts.length by
      omega)⟩
  · intro position high
    obtain ⟨more, rfl⟩ : ∃ more, position = parts.length + more :=
      ⟨position - parts.length, by omega⟩
    exact ⟨error, by rw [nthPart_append areParts, nthPart_malformed fails]⟩
  · have few := length_le_flatten areParts
    rw [List.length_append] at bounded
    unfold lastPosition
    omega

/-- A stuck cache has the index of the last item. -/
theorem lastIndex (ends : Ends view content last)
    (stuck : Stuck content parts bad error cache) :
    cache.lastIndex = last := by
  have counted := stuck.lastIndex
  have low : cache.lastIndex ≤ last := by
    by_contra high
    obtain ⟨other, failed⟩ := ends.none cache.lastIndex (by omega)
    have found := nthPart_parts stuck.areParts bad
      (show cache.lastIndex < parts.length by omega)
    rw [← stuck.split, failed] at found
    cases found
  have high : last < parts.length := by
    by_contra low'
    obtain ⟨part, found⟩ := ends.some parts.length (by omega)
    have failed := nthPart_append stuck.areParts 0 bad
    rw [← stuck.split, Nat.add_zero, nthPart_malformed stuck.fails,
      found] at failed
    cases failed
  omega

/-- The cache after some accesses. -/
inductive Held (content : Bytes) (front : List Nat) (cache : IndexCache) :
    Prop where
  | fresh (all : ∀ position ∈ front, position = lastPosition)
      (same : cache = {})
  | cached {parts : List Bytes} {rest : Bytes} {size : Nat}
      (cached : Cached content parts rest size cache)
  | stuck {parts : List Bytes} {bad : Bytes} {error : RLPError}
      (stuck : Stuck content parts bad error cache)

theorem Held.of_sound {front : List Nat}
    {result : EStateM.Result RLPError IndexCache Bytes}
    (sound : Sound content position result) :
    Held content front (cacheAfter result) := by
  rcases sound with ⟨-, parts, rest, size, after, rfl, -, cached⟩ |
    ⟨error, parts, bad, after, rfl, -, stuck⟩
  · exact .cached cached
  · exact .stuck stuck

/-- Every access to another index than that of a stuck cache is sound, but
for `lastPosition` on a fresh one. -/
theorem sound (ends : Ends view content last) {front : List Nat}
    (held : Held content front cache)
    (fresh : cache = {} → position < lastPosition)
    (notStuck : ∀ {parts bad error},
      Stuck content parts bad error cache → position ≠ last) :
    Sound content position ((index view position).run cache) := by
  cases held with
  | fresh all same =>
      obtain ⟨size, accepted⟩ := ends.readable
      have early := fresh same
      subst same
      exact index_start ends.payload ends.bounded accepted early
  | cached cached => exact index_cached ends.payload ends.bounded cached _
  | stuck stuck =>
      apply index_stuck ends.payload ends.bounded stuck
      rw [ends.lastIndex stuck]
      exact notStuck stuck

theorem held (ends : Ends view content last) (front : List Nat)
    (inRange : ∀ position ∈ front, position < sizeTRange) :
    Held content front (replay view {} front) := by
  induction front using List.reverseRecOn with
  | nil => exact .fresh nofun rfl
  | append_singleton front position induction =>
      have before := induction fun other member =>
        inRange other (List.mem_append_left _ member)
      have below := inRange position (by simp)
      rw [replay_concat]
      generalize replay view {} front = cache at before
      cases before with
      | fresh all same =>
          by_cases early : position < lastPosition
          · exact .of_sound (ends.sound (.fresh all same) (fun _ => early)
              fun stuck => by
                rw [same] at stuck
                exact absurd stuck.lastItem.symm stuck.nonempty)
          · rw [eq_last below early, same, index_fresh_last]
            refine .fresh ?_ rfl
            intro other member
            rcases List.mem_append.mp member with inFront | here
            · exact all other inFront
            · rw [List.mem_singleton.mp here]
      | cached cached =>
          exact .of_sound
            (index_cached ends.payload ends.bounded cached position)
      | stuck stuck =>
          by_cases here : position = cache.lastIndex
          · rw [here, index_stuck_here stuck]
            exact .stuck stuck
          · exact .of_sound
              (index_stuck ends.payload ends.bounded stuck here)

theorem not_stuck_fresh : ¬ Stuck content parts bad error {} :=
  fun stuck => stuck.nonempty stuck.lastItem.symm

theorem replay_last {front : List Nat}
    (all : ∀ position ∈ front, position = lastPosition) :
    replay view {} front = {} := by
  induction front using List.reverseRecOn with
  | nil => rfl
  | append_singleton front position induction =>
      rw [replay_concat, all position (by simp),
        induction fun other member => all other (List.mem_append_left _ member),
        index_fresh_last]
      rfl

theorem late (ends : Ends view content last)
    {result : EStateM.Result RLPError IndexCache Bytes}
    (sound : Sound content position result)
    (stuck : Stuck content parts bad error (cacheAfter result)) :
    last < position := by
  rcases sound with ⟨part, parts', rest', size', after, rfl, found, cached⟩ |
    ⟨other, parts', bad', after, rfl, failed, stuck'⟩
  · exact (cached.not_stuck stuck).elim
  · by_contra low
    obtain ⟨part, found⟩ := ends.some position (Nat.le_of_not_lt low)
    rw [failed] at found
    cases found

theorem stuck_of_late (ends : Ends view content last)
    {result : EStateM.Result RLPError IndexCache Bytes}
    (sound : Sound content position result) (late : last < position) :
    ∃ parts bad error, Stuck content parts bad error (cacheAfter result) := by
  obtain ⟨other, failed⟩ := ends.none position late
  rcases sound with ⟨part, parts, rest, size, after, rfl, found, cached⟩ |
    ⟨error, parts, bad, after, rfl, thrown, stuck⟩
  · rw [failed] at found
    cases found
  · exact ⟨parts, bad, error, stuck⟩

/-- A spared cache is stuck only right behind an access that throws. -/
theorem stuck_behind (ends : Ends view content last) {accesses : List Nat}
    (spares : Spares last accesses) {front back : List Nat}
    (split : accesses = front ++ back)
    (inRange : ∀ position ∈ front, position < sizeTRange)
    (stuck : Stuck content parts bad error (replay view {} front)) :
    ∃ before position, front = before ++ [position] ∧ last < position ∧
      position ≠ lastPosition := by
  induction front using List.reverseRecOn generalizing back parts bad error with
  | nil => exact absurd stuck not_stuck_fresh
  | append_singleton front position induction =>
      have below : ∀ other ∈ front, other < sizeTRange :=
        fun other member => inRange other (List.mem_append_left _ member)
      have here : accesses = front ++ position :: back := by
        rw [split, List.append_assoc]
        rfl
      rw [replay_concat] at stuck
      have notLast : position ≠ lastPosition := by
        rintro rfl
        rw [replay_last (spares.end_ front back here), index_fresh_last]
          at stuck
        exact not_stuck_fresh stuck
      have early : position < lastPosition := by
        by_contra late
        exact notLast (eq_last (inRange position (by simp)) late)
      have sound := ends.sound (ends.held front below) (fun _ => early)
        fun stuck' => by
          rintro rfl
          obtain ⟨before, previous, rfl, high, usual⟩ := induction here below
            stuck'
          rcases spares.last before previous back (by
            rw [here, List.append_assoc]
            rfl) with low | same
          · omega
          · exact usual same
      exact ⟨front, position, rfl, ends.late sound stuck, notLast⟩

theorem positioned_transparent_iff (ends : Ends view content last)
    {accesses : List Nat}
    (inRange : ∀ position ∈ accesses, position < sizeTRange) :
    Transparent view accesses ↔ Spares last accesses := by
  constructor
  · intro transparent
    constructor
    · intro front position back split
      by_contra unusual
      rw [not_or] at unusual
      have below : ∀ other ∈ front ++ [position], other < sizeTRange := by
        intro other member
        apply inRange
        rw [split]
        simp at member ⊢
        tauto
      have early : position < lastPosition := by
        by_contra late
        exact unusual.2 (eq_last (below position (by simp)) late)
      have sound := ends.sound (ends.held front fun other member =>
          below other (List.mem_append_left _ member)) (fun _ => early)
        fun _ same => unusual.1 (Nat.le_of_eq same)
      obtain ⟨parts, bad, error, stuck⟩ := ends.stuck_of_late sound (by omega)
      have same := transparent (front ++ [position]) last back (by simp [split])
      have failed := @index_stuck_here view _ _ _ _ _ stuck
      rw [ends.lastIndex stuck, ← replay_concat] at failed
      obtain ⟨part, found⟩ := ends.some last (Nat.le_refl _)
      rw [failed, at_eq ends.payload ends.bounded ends.early, found] at same
      cases same
    · intro front back split position member
      by_contra unusual
      have same := transparent front lastPosition back split
      have sound : Sound content lastPosition
          ((index view lastPosition).run (replay view {} front)) := by
        have held := ends.held front fun other inFront =>
          inRange other (by simp [split, inFront])
        cases held with
        | fresh all _ => exact absurd (all position member) unusual
        | cached cached =>
            exact index_cached ends.payload ends.bounded cached _
        | stuck stuck =>
            apply index_stuck ends.payload ends.bounded stuck
            rw [ends.lastIndex stuck]
            exact (Nat.ne_of_lt ends.early).symm
      obtain ⟨error, failed⟩ := ends.none lastPosition ends.early
      rw [sound.outcome, failed, at_last] at same
      cases same
  · intro spares front position back split
    have below : ∀ other ∈ front, other < sizeTRange :=
      fun other member => inRange other (by simp [split, member])
    by_cases early : position < lastPosition
    · rw [at_eq ends.payload ends.bounded early]
      refine (ends.sound (ends.held front below) (fun _ => early) ?_).outcome
      rintro parts bad error stuck rfl
      obtain ⟨before, previous, rfl, high, usual⟩ :=
        ends.stuck_behind spares split below stuck
      rcases spares.last before previous back (by
        rw [split, List.append_assoc]
        rfl) with low | same
      · omega
      · exact usual same
    · obtain rfl := eq_last (inRange position (by simp [split])) early
      rw [replay_last (spares.end_ front back split), at_eq_outcome]

end Ends

/-- A payload is malformed behind one item only. -/
theorem Ends.unique {last other : Nat} (ends : Ends view content last)
    (others : Ends view content other) : last = other := by
  rcases Nat.lt_trichotomy last other with below | same | above
  · obtain ⟨error, failed⟩ := ends.none other below
    obtain ⟨part, found⟩ := others.some other (Nat.le_refl _)
    rw [failed] at found
    cases found
  · exact same
  · obtain ⟨error, failed⟩ := others.none last above
    obtain ⟨part, found⟩ := ends.some last (Nat.le_refl _)
    rw [failed] at found
    cases found

theorem MalformedAfter.ends {last : Nat} (malformed : MalformedAfter view last)
    (bounded : view.length < sizeTRange - 1) :
    ∃ content, Ends view content last := by
  obtain ⟨parts, bad, error, payload, areParts, counted, -, fails⟩ := malformed
  have short := payload_length_le payload
  exact ⟨_, Ends.of_parts payload (by omega) areParts counted fails⟩

theorem Ends.agrees {last other : Nat} (ends : Ends view content last)
    (malformed : MalformedAfter view other)
    (bounded : view.length < sizeTRange - 1) : last = other := by
  obtain ⟨content', others⟩ := malformed.ends bounded
  have same := ends.payload
  rw [others.payload] at same
  cases same
  exact ends.unique others

end

end RLP

/-- The cache of `operator[]` makes no difference, but for a list with items
behind which its payload is malformed: the last of these throws right after an
index behind it. -/
theorem RLP.index_transparent_iff {data view : Bytes} {flags : Strictness}
    (bounded : data.length < sizeTRange - 1)
    (constructed : RLP.construct data flags = .ok view)
    (list : RLP.isList view = true) {accesses : List Nat}
    (inRange : ∀ position ∈ accesses, position < sizeTRange) :
    RLP.Transparent view accesses ↔
      ∀ last, RLP.MalformedAfter view last → RLP.Spares last accesses := by
  obtain rfl := RLP.construct_list constructed list
  cases payload : RLP.payload view with
  | error error =>
      refine iff_of_true (RLP.transparent_of_fresh
        (fun position early => ⟨error, RLP.index_back_null payload early⟩)
        accesses inRange) ?_
      rintro last ⟨parts, bad, other, found, -⟩
      rw [payload] at found
      cases found
  | ok content =>
      have short := RLP.payload_length_le payload
      obtain ⟨parts, areParts, whole | ⟨bad, error, split, some, fails⟩⟩ :=
        RLP.exists_parts content
      · subst whole
        refine iff_of_true (RLP.transparent_of_parts payload (by omega)
          areParts accesses inRange) ?_
        intro last malformed
        obtain ⟨other, ends⟩ := malformed.ends bounded
        have same := ends.payload
        rw [payload] at same
        cases same
        obtain ⟨error, failed⟩ := ends.none (max (last + 1) parts.length)
          (by omega)
        rw [RLP.nthPart_beyond areParts (Nat.le_max_right _ _)] at failed
        cases failed
      · subst split
        cases counted : parts.length with
        | zero =>
            have none := List.length_eq_zero_iff.mp counted
            subst none
            rw [List.flatten_nil, List.nil_append] at payload
            refine iff_of_true (RLP.transparent_of_fresh
              (fun position early =>
                ⟨error, RLP.index_back_malformed payload fails early⟩)
              accesses inRange) ?_
            intro last malformed
            obtain ⟨other, ends⟩ := malformed.ends bounded
            have same := ends.payload
            rw [payload] at same
            cases same
            obtain ⟨size, readable⟩ := ends.readable
            rw [fails] at readable
            cases readable
        | succ last =>
            have ends := RLP.Ends.of_parts payload (by omega) areParts counted
              fails
            rw [ends.positioned_transparent_iff inRange]
            constructor
            · intro spares other malformed
              rw [← ends.agrees malformed bounded]
              exact spares
            · intro spares
              exact spares last ⟨parts, bad, error, payload, areParts, counted,
                some, fails⟩

/-- The first item of a list, and then the malformed one behind it. -/
theorem RLP.index_transparent_iff_sample :
    RLP.Transparent [0xc2, 0x01, 0x81] [0, 1] := by
  refine (@RLP.index_transparent_iff [0xc2, 0x01, 0x81] _ .laissezFaire
    (by decide) rfl rfl [0, 1] (by decide)).mpr fun last _ => ?_
  constructor
  · intro front position back split
    have short := congrArg List.length split
    rw [List.length_append, List.length_cons, List.length_cons] at short
    obtain rfl : front = [] := by
      apply List.eq_nil_of_length_eq_zero
      simp only [List.length_cons, List.length_nil] at short
      omega
    cases split
    exact .inl (Nat.zero_le _)
  · intro front back split
    have member : RLP.lastPosition ∈ [0, 1] := by
      rw [split]
      simp
    exact absurd member (by decide)

/-- The second item of the list throws, and then the first one does too. -/
theorem RLP.index_stuck_sample :
    RLP.construct [0xc2, 0x01, 0x81] .laissezFaire =
        .ok [0xc2, 0x01, 0x81] ∧
      RLP.isList [0xc2, 0x01, 0x81] = true ∧
      RLP.at_ [0xc2, 0x01, 0x81] 0 = .ok [0x01] ∧
      ¬ RLP.Transparent [0xc2, 0x01, 0x81] [1, 0] := by
  refine ⟨by decide, by decide, by decide, ?_⟩
  intro transparent
  have same := transparent [1] 0 [] rfl
  revert same
  decide

end Aecmio
