import Aecmio.Core.RangeMask
import Aecmio.Logic.Chunks

/-!
# The chunked maps of the chain download

The headers and bodies on their way are kept in maps from the number of a
chunk's first item to the items of the chunk.  A chunk that another one
touches is fused with it, so that `haveItem` and `findItem` need to look at
one chunk only.
-/

namespace Aecmio

open Chunks

namespace BlockChainSync

variable {T : Type}

/-- `lower_bound`: the chunks before it and those from it on. -/
def lowerBound (container : List (Chunk T)) (number : ℕ) :
    List (Chunk T) × List (Chunk T) :=
  (container.takeWhile fun chunk => chunk.1 < number,
    container.dropWhile fun chunk => chunk.1 < number)

/-- `--lower`. -/
def decrement (lower : List (Chunk T) × List (Chunk T)) :
    List (Chunk T) × List (Chunk T) :=
  (lower.1.dropLast, lower.1.getLast?.toList ++ lower.2)

/-- `lower != end() && lower->first == _number`. -/
def startsAt (lower : List (Chunk T) × List (Chunk T)) (number : ℕ) : Bool :=
  lower.2.head?.any fun chunk => chunk.1 = number

/-- `lower->first <= _number && lower->first + lower->second.size() >
_number`. -/
def covers (chunk : Chunk T) (number : ℕ) : Bool :=
  chunk.1 ≤ number ∧ chunk.1 + chunk.2.length > number

def haveItem (container : List (Chunk T)) (number : ℕ) : Bool :=
  let lower := lowerBound container number
  if container.isEmpty then false
  else if startsAt lower number then true
  else if lower.1.isEmpty then false
  else (decrement lower).2.head?.any fun chunk => covers chunk number

def findItem (container : List (Chunk T)) (number : ℕ) : Option T :=
  let lower := lowerBound container number
  if container.isEmpty then none
  else if startsAt lower number then
    lower.2.head?.bind fun chunk => chunk.2.head?
  else if lower.1.isEmpty then none
  else (decrement lower).2.head?.bind fun chunk =>
    if covers chunk number then chunk.2[number - chunk.1]? else none

/-- The chunk without its items from a number on, when it covers it. -/
def cutAt (chunk : Chunk T) (number : ℕ) : Chunk T :=
  if covers chunk number then
    (chunk.1, chunk.2.take (number - chunk.1))
  else chunk

def removeAllStartingWith (container : List (Chunk T)) (number : ℕ) :
    List (Chunk T) :=
  let lower := lowerBound container number
  if container.isEmpty then container
  else if startsAt lower number then lower.1
  else if lower.1.isEmpty then []
  else (decrement lower).1 ++
    ((decrement lower).2.head?.map fun chunk => cutAt chunk number).toList

/-- The next chunk is moved into this one when it starts at `stop`. -/
def mergeWithNext (chunk : Chunk T) (stop : ℕ) :
    List (Chunk T) → List (Chunk T)
  | [] => [chunk]
  | next :: rest =>
      if next.1 = stop then (chunk.1, chunk.2 ++ next.2) :: rest
      else chunk :: next :: rest

/-- A new chunk, at its place between the others. -/
def insertChunk (container : List (Chunk T)) (number : ℕ) (data : T) :
    List (Chunk T) :=
  let place := lowerBound container number
  place.1 ++ mergeWithNext (number, [data]) (unsignedPlus number 1) place.2

/-- `mergeInto`, none when its assertion fails. -/
def mergeInto (container : List (Chunk T)) (number : ℕ) (data : T) :
    Option (List (Chunk T)) :=
  if haveItem container number then none
  else
    let begin_ := lowerBound container number
    let lower := if begin_.1.isEmpty then begin_ else decrement begin_
    match lower.2 with
    | [] => some (insertChunk container number data)
    | chunk :: behind =>
        if chunk.1 + chunk.2.length = number then
          let extended : Chunk T := (chunk.1, chunk.2 ++ [data])
          some (lower.1 ++ mergeWithNext extended
            (extended.1 + extended.2.length) behind)
        else some (insertChunk container number data)

/-- A map of chunks that are not empty and do not touch each other. -/
structure ChunkedMap (T : Type) where
  chunks : List (Chunk T)
  apart : Apart chunks

namespace ChunkedMap

/-- The finite map that the chunks stand for. -/
def item (map : ChunkedMap T) (number : ℕ) : Option T :=
  Chunks.item map.chunks number

end ChunkedMap

/-! ## The chunk to look at -/

variable {container front back init : List (Chunk T)} {last : Chunk T}
  {number other : ℕ} {data : T}

theorem decrement_append :
    decrement (init ++ [last], back) = (init, last :: back) := by
  simp [decrement]

/-- `lower_bound` of a number in a map of such chunks. -/
structure Lower (container : List (Chunk T)) (number : ℕ)
    (front back : List (Chunk T)) : Prop where
  found : lowerBound container number = (front, back)
  parts : front ++ back = container
  below : ∀ chunk ∈ front, chunk.1 < number
  from_ : ∀ chunk ∈ back, number ≤ chunk.1

theorem exists_lower (apart : Apart container) (number : ℕ) :
    ∃ front back, Lower container number front back := by
  have parts := @List.takeWhile_append_dropWhile _
    (fun chunk : Chunk T => decide (chunk.1 < number)) container
  refine ⟨_, _, rfl, parts, ?_, ?_⟩
  · intro chunk member
    simpa using List.mem_takeWhile_imp member
  · intro later member
    cases behind : container.dropWhile fun chunk => chunk.1 < number with
    | nil =>
        rw [behind] at member
        cases member
    | cons chunk rest =>
        have stops : ¬chunk.1 < number := by
          have nonempty : container.dropWhile
              (fun chunk => chunk.1 < number) ≠ [] := by
            rw [behind]
            exact List.cons_ne_nil _ _
          simpa [behind] using List.head_dropWhile_not _ nonempty
        rw [behind] at member parts
        rw [← parts] at apart
        have behindApart := (Apart.append_iff.mp apart).2.1
        rcases List.mem_cons.mp member with same | member
        · rw [same]
          exact not_lt.mp stops
        · have starts := behindApart.first_lt List.mem_cons_self
          have gap := (Apart.cons_iff.mp behindApart).2.1 later member
          omega

namespace Lower

variable (lower : Lower container number front back)

include lower

theorem item_eq : item container other =
    (item front other).or (item back other) := by
  rw [← lower.parts, item_append]

theorem item_back (before : other < number) : item back other = none :=
  item_of_lt fun chunk member =>
    lt_of_lt_of_le before (lower.from_ chunk member)

theorem notEmpty (some_ : front ++ back ≠ []) : container.isEmpty = false := by
  rw [← lower.parts, List.isEmpty_eq_false_iff]
  exact some_

/-- Everything before a chunk of this number, and behind the last one. -/
theorem item_init (apart : Apart container) (nearest : front = init ++ [last])
    (behind : last.1 ≤ other) : item init other = none := by
  rw [← lower.parts, nearest] at apart
  have frontApart := (Apart.append_iff.mp apart).1
  apply item_of_stop_le
  intro chunk member
  have gap := (Apart.append_iff.mp frontApart).2.2 chunk member last
    List.mem_cons_self
  omega

theorem item_front (apart : Apart container) {chunk : Chunk T}
    {rest : List (Chunk T)} (starts : back = chunk :: rest)
    (behind : chunk.1 ≤ other) : item front other = none := by
  rw [← lower.parts, starts] at apart
  apply item_of_stop_le
  intro earlier member
  have gap := (Apart.append_iff.mp apart).2.2 earlier member chunk
    List.mem_cons_self
  omega

theorem item_rest (apart : Apart container) {chunk : Chunk T}
    {rest : List (Chunk T)} (starts : back = chunk :: rest)
    (before : other ≤ chunk.1) : item rest other = none := by
  rw [← lower.parts, starts] at apart
  have behindApart := (Apart.append_iff.mp apart).2.1
  have begins := behindApart.first_lt List.mem_cons_self
  exact behindApart.item_beyond (by omega)

/-- Either a chunk starts at the number or all the next ones are behind it. -/
theorem starts_or (apart : Apart container) :
    (∃ chunk rest, back = chunk :: rest ∧ chunk.1 = number) ∨
    startsAt (front, back) number = false ∧
      ∀ chunk ∈ back, number < chunk.1 := by
  cases same : back with
  | nil => exact .inr ⟨rfl, by simp⟩
  | cons chunk rest =>
      by_cases starts : chunk.1 = number
      · exact .inl ⟨chunk, rest, rfl, starts⟩
      · refine .inr ⟨decide_eq_false starts, ?_⟩
        have first := lower.from_ chunk (by
          rw [same]
          exact List.mem_cons_self)
        rw [← lower.parts, same] at apart
        have behindApart := (Apart.append_iff.mp apart).2.1
        have begins := behindApart.first_lt List.mem_cons_self
        intro later member
        rcases List.mem_cons.mp member with here | member
        · rw [here]
          omega
        · have gap := (Apart.cons_iff.mp behindApart).2.1 later member
          omega

end Lower

theorem covers_iff {chunk : Chunk T} :
    covers chunk number ↔ chunk.1 ≤ number ∧ number < chunk.stop :=
  decide_eq_true_iff

theorem if_covers {chunk : Chunk T} :
    (if covers chunk number then chunk.2[number - chunk.1]? else none) =
      chunk.item number := by
  by_cases covered : covers chunk number
  · rw [if_pos covered, Chunk.item, if_pos (covers_iff.mp covered).1]
  · have missing : ¬(chunk.item number).isSome := by
      rw [Chunk.isSome_item, ← covers_iff]
      exact covered
    rw [if_neg covered, Option.not_isSome_iff_eq_none.mp missing]

theorem findItem_eq (apart : Apart container) :
    findItem container number = item container number := by
  obtain ⟨front, back, lower⟩ := exists_lower apart number
  rw [lower.item_eq]
  simp only [findItem, lower.found]
  rcases lower.starts_or apart with ⟨chunk, rest, starts, here⟩ |
      ⟨none_, behind⟩
  · have found : startsAt (front, back) number = true := by
      rw [starts]
      exact decide_eq_true here
    have before := lower.item_front apart starts (le_of_eq here)
    have behind := lower.item_rest apart starts (le_of_eq here.symm)
    rw [lower.notEmpty (by simp [starts]), if_neg Bool.false_ne_true,
      if_pos found, before, Option.none_or, starts, item_cons, behind,
      Option.or_none, ← here, Chunk.item_first]
    rfl
  · have nothing : item back number = none := item_of_lt behind
    rw [none_, nothing, Option.or_none]
    cases nearest : front using List.reverseRecOn with
    | nil => simp
    | append_singleton init last =>
        have last_ : last.1 < number := lower.below last (by simp [nearest])
        rw [lower.notEmpty (by simp [nearest]), item_append,
          lower.item_init apart nearest (le_of_lt last_), Option.none_or]
        simp [decrement_append, if_covers]

theorem haveItem_eq (apart : Apart container) :
    haveItem container number = (item container number).isSome := by
  obtain ⟨front, back, lower⟩ := exists_lower apart number
  rw [← findItem_eq apart]
  simp only [haveItem, findItem, lower.found, if_covers]
  split
  · rfl
  split
  · next _ starts =>
      cases same : back with
      | nil => simp [startsAt, same] at starts
      | cons chunk rest =>
          have member : chunk ∈ container := by
            rw [← lower.parts, same]
            exact List.mem_append_right _ List.mem_cons_self
          obtain ⟨first, items, listed⟩ :=
            List.exists_cons_of_ne_nil (apart.nonempty chunk member)
          simp [listed]
  split
  · rfl
  cases (decrement (front, back)).2.head? with
  | none => rfl
  | some chunk =>
      rw [Bool.eq_iff_iff]
      exact covers_iff.trans Chunk.isSome_item.symm

/-! ## Removing -/

theorem item_cutAt {chunk : Chunk T} (starts : chunk.1 < number) :
    (cutAt chunk number).item other =
      if other < number then chunk.item other else none := by
  unfold cutAt
  split
  · exact Chunk.item_take (le_of_lt starts)
  · next uncovered =>
      have stops : chunk.stop ≤ number := by
        rw [covers_iff] at uncovered
        omega
      split
      · rfl
      · exact Chunk.item_of_stop_le (by omega)

theorem cutAt_ne_nil {chunk : Chunk T} (some_ : chunk.2 ≠ [])
    (starts : chunk.1 < number) : (cutAt chunk number).2 ≠ [] := by
  unfold cutAt
  split
  · rw [ne_eq, List.take_eq_nil_iff]
    simp [some_]
    omega
  · exact some_

theorem cutAt_first {chunk : Chunk T} : (cutAt chunk number).1 = chunk.1 := by
  unfold cutAt
  split <;> rfl

theorem removeAllStartingWith_spec (apart : Apart container) :
    Apart (removeAllStartingWith container number) ∧
    ∀ other, item (removeAllStartingWith container number) other =
      if other < number then item container other else none := by
  obtain ⟨front, back, lower⟩ := exists_lower apart number
  have parts := apart
  rw [← lower.parts, Apart.append_iff] at parts
  simp only [removeAllStartingWith, lower.found]
  rcases lower.starts_or apart with ⟨chunk, rest, starts, here⟩ |
      ⟨none_, behind⟩
  · have found : startsAt (front, back) number = true := by
      rw [starts]
      exact decide_eq_true here
    rw [lower.notEmpty (by simp [starts]), if_neg Bool.false_ne_true,
      if_pos found]
    refine ⟨parts.1, fun other => ?_⟩
    split
    · next before =>
        rw [lower.item_eq, lower.item_back before, Option.or_none]
    · exact lower.item_front apart starts (by omega)
  · rw [none_]
    cases nearest : front using List.reverseRecOn with
    | nil =>
        have cleared : (if container.isEmpty = true then container else [])
            = [] := by
          split
          · next empty => exact List.isEmpty_iff.mp empty
          · rfl
        simp only [Bool.false_eq_true, if_false, List.isEmpty_nil, if_true,
          cleared]
        refine ⟨.nil, fun other => ?_⟩
        split
        · next before =>
            rw [lower.item_eq, lower.item_back before, nearest]
            rfl
        · rfl
    | append_singleton init last =>
        have starts : last.1 < number := lower.below last (by simp [nearest])
        rw [nearest, Apart.append_iff] at parts
        obtain ⟨⟨initApart, lastApart, gap⟩, -, -⟩ := parts
        rw [lower.notEmpty (by simp [nearest]), if_neg Bool.false_ne_true,
          if_neg Bool.false_ne_true, if_neg (by simp), decrement_append]
        simp only [List.head?_cons, Option.map_some, Option.toList_some]
        refine ⟨Apart.append_iff.mpr ⟨initApart, ?_, ?_⟩, fun other => ?_⟩
        · exact Apart.cons_iff.mpr
            ⟨cutAt_ne_nil (Apart.cons_iff.mp lastApart).1 starts, by simp,
              .nil⟩
        · intro chunk member later same
          rw [List.mem_singleton.mp same, cutAt_first]
          exact gap chunk member last List.mem_cons_self
        · rw [item_append, item_cons, item_nil, Option.or_none,
            item_cutAt starts]
          split
          · next before =>
              rw [lower.item_eq, lower.item_back before, nearest, item_append,
                item_cons, item_nil, Option.or_none, Option.or_none]
          · rw [Option.or_none]
            exact lower.item_init apart nearest (by omega)

/-! ## Inserting -/

theorem mergeWithNext_spec {chunk : Chunk T} {behind : List (Chunk T)}
    (some_ : chunk.2 ≠ []) (apart : Apart behind)
    (atMost : ∀ later ∈ behind, chunk.stop ≤ later.1) :
    Apart (mergeWithNext chunk chunk.stop behind) ∧
    (∀ later ∈ mergeWithNext chunk chunk.stop behind, chunk.1 ≤ later.1) ∧
    ∀ other, item (mergeWithNext chunk chunk.stop behind) other =
      (chunk.item other).or (item behind other) := by
  cases behind with
  | nil =>
      refine ⟨Apart.cons_iff.mpr ⟨some_, by simp, .nil⟩, ?_, fun other => ?_⟩
      · intro later member
        rw [List.mem_singleton.mp member]
      · exact item_cons
  | cons next rest =>
      obtain ⟨nextSome, gap, restApart⟩ := Apart.cons_iff.mp apart
      by_cases touches : next.1 = chunk.stop
      · rw [mergeWithNext, if_pos touches]
        refine ⟨Apart.cons_iff.mpr ⟨by simp [some_], ?_, restApart⟩, ?_,
          fun other => ?_⟩
        · intro later member
          have behindNext := gap later member
          unfold Chunk.stop at *
          simp only [List.length_append]
          omega
        · intro later member
          rcases List.mem_cons.mp member with same | member
          · rw [same]
          · have after := atMost later (List.mem_cons_of_mem _ member)
            unfold Chunk.stop at after
            omega
        · rw [item_cons, item_cons, Chunk.item_append, Option.or_assoc]
          unfold Chunk.stop at touches
          rw [← touches]
      · rw [mergeWithNext, if_neg touches]
        have behindChunk : ∀ later ∈ next :: rest, chunk.stop < later.1 := by
          intro later member
          rcases List.mem_cons.mp member with same | member
          · rw [same]
            exact lt_of_le_of_ne (atMost next List.mem_cons_self)
              (Ne.symm touches)
          · have begins := apart.first_lt List.mem_cons_self
            have first := atMost next List.mem_cons_self
            have behindNext := gap later member
            omega
        refine ⟨Apart.cons_iff.mpr ⟨some_, behindChunk, apart⟩, ?_,
          fun other => item_cons⟩
        intro later member
        rcases List.mem_cons.mp member with same | member
        · rw [same]
        · have after := behindChunk later member
          unfold Chunk.stop at after
          omega

/-- What `mergeWithNext` makes of a chunk, behind the chunks before it. -/
theorem append_mergeWithNext {chunk : Chunk T} {behind : List (Chunk T)}
    (some_ : chunk.2 ≠ []) (frontApart : Apart front) (apart : Apart behind)
    (before : ∀ earlier ∈ front, earlier.stop < chunk.1)
    (atMost : ∀ later ∈ behind, chunk.stop ≤ later.1) :
    Apart (front ++ mergeWithNext chunk chunk.stop behind) ∧
    ∀ other, item (front ++ mergeWithNext chunk chunk.stop behind) other =
      (item front other).or
        ((chunk.item other).or (item behind other)) := by
  obtain ⟨merged, firsts, items⟩ := mergeWithNext_spec some_ apart atMost
  refine ⟨Apart.append_iff.mpr ⟨frontApart, merged, ?_⟩, fun other => ?_⟩
  · intro earlier early later member
    exact lt_of_lt_of_le (before earlier early) (firsts later member)
  · rw [item_append, items]

/-- The items with a new one between the chunks before and behind it. -/
theorem Lower.item_inserted (lower : Lower container number front back)
    (absent : item container number = none) :
    (item front other).or
      ((Chunk.item (number, [data]) other).or (item back other)) =
        if other = number then some data else item container other := by
  rw [lower.item_eq, Option.or_eq_none_iff] at absent
  rw [Chunk.item_singleton]
  split
  · next same =>
      rw [same, absent.1]
      rfl
  · rw [Option.none_or, ← lower.item_eq]

theorem Lower.behind (lower : Lower container number front back)
    (apart : Apart container) (absent : item container number = none) :
    ∀ later ∈ back, number + 1 ≤ later.1 := by
  rcases lower.starts_or apart with ⟨chunk, rest, starts, here⟩ | ⟨-, behind⟩
  · have member : chunk ∈ container := by
      rw [← lower.parts, starts]
      exact List.mem_append_right _ List.mem_cons_self
    have missing := item_eq_none.mp absent chunk member
    rw [← here, Chunk.item_first, List.head?_eq_none_iff] at missing
    exact absurd missing (apart.nonempty chunk member)
  · exact behind

theorem insertChunk_spec (apart : Apart container)
    (absent : item container number = none)
    (usual : number + 1 < unsignedRange)
    (before : ∀ chunk ∈ container, chunk.1 < number → chunk.stop < number) :
    Apart (insertChunk container number data) ∧
    ∀ other, item (insertChunk container number data) other =
      if other = number then some data else item container other := by
  obtain ⟨front, back, lower⟩ := exists_lower apart number
  have parts := apart
  rw [← lower.parts, Apart.append_iff] at parts
  have stop : unsignedPlus number 1 = Chunk.stop (number, [data]) :=
    Nat.mod_eq_of_lt usual
  have touchesNone : ∀ chunk ∈ front, chunk.stop < number := by
    intro chunk member
    apply before chunk _ (lower.below chunk member)
    rw [← lower.parts]
    exact List.mem_append_left _ member
  have some_ : ((number, [data]) : Chunk T).2 ≠ [] := List.cons_ne_nil _ _
  obtain ⟨merged, items⟩ := append_mergeWithNext some_ parts.1 parts.2.1
    touchesNone (lower.behind apart absent)
  simp only [insertChunk, lower.found, stop]
  exact ⟨merged, fun other =>
    (items other).trans (lower.item_inserted absent)⟩

theorem mergeInto_spec (apart : Apart container)
    (absent : item container number = none)
    (usual : number + 1 < unsignedRange) (data : T) :
    ∃ merged, mergeInto container number data = some merged ∧
      Apart merged ∧ ∀ other, item merged other =
        if other = number then some data else item container other := by
  obtain ⟨front, back, lower⟩ := exists_lower apart number
  have parts := apart
  rw [← lower.parts, Apart.append_iff] at parts
  have behind := lower.behind apart absent
  have allowed : haveItem container number = false := by
    rw [haveItem_eq apart, absent]
    rfl
  cases nearest : front using List.reverseRecOn with
  | nil =>
      have none_ : ∀ chunk ∈ container, chunk.1 < number →
          chunk.stop < number := by
        intro chunk member small
        rw [← lower.parts, nearest, List.nil_append] at member
        have large := behind chunk member
        omega
      refine ⟨_, ?_, insertChunk_spec apart absent usual none_⟩
      rw [nearest] at lower
      simp only [mergeInto, allowed, lower.found, List.isEmpty_nil, if_true,
        Bool.false_eq_true, if_false]
      cases same : back with
      | nil => rfl
      | cons chunk rest =>
          have large := behind chunk (by simp [same])
          exact if_neg (by omega)
  | append_singleton init last =>
      have small : last.1 < number := lower.below last (by simp [nearest])
      have member : last ∈ container := by
        rw [← lower.parts, nearest]
        simp
      have beyond : last.stop ≤ number := by
        have missing := item_eq_none.mp absent last member
        have notSome : ¬(last.item number).isSome := by
          rw [missing]
          exact Bool.false_ne_true
        rw [Chunk.isSome_item] at notSome
        omega
      have isEmpty : ¬(init ++ [last]).isEmpty = true := by simp
      rw [nearest] at lower parts
      simp only [mergeInto, allowed, lower.found, Bool.false_eq_true,
        if_false, if_neg isEmpty, decrement_append]
      by_cases touches : last.1 + last.2.length = number
      · rw [if_pos touches]
        obtain ⟨⟨initApart, -, gap⟩, backApart, -⟩ := parts.imp_left
          Apart.append_iff.mp
        have some_ : ((last.1, last.2 ++ [data]) : Chunk T).2 ≠ [] := by
          simp
        have stop : Chunk.stop (last.1, last.2 ++ [data]) = number + 1 := by
          rw [Chunk.stop, List.length_append, ← Nat.add_assoc, touches]
          rfl
        have before : ∀ earlier ∈ init, earlier.stop < last.1 :=
          fun earlier early => gap earlier early last List.mem_cons_self
        obtain ⟨merged, items⟩ := append_mergeWithNext some_ initApart
          backApart before (by
            rw [stop]
            exact behind)
        refine ⟨_, rfl, merged, fun other => (items other).trans ?_⟩
        rw [← lower.item_inserted absent, Chunk.item_append, touches,
          item_append, item_cons, item_nil, Option.or_none, Option.or_assoc,
          Option.or_assoc]
      · rw [if_neg touches]
        refine ⟨_, rfl, insertChunk_spec apart absent usual ?_⟩
        intro chunk member below
        rw [← lower.parts, List.append_assoc, List.mem_append] at member
        obtain ⟨⟨-, -, gap⟩, -, -⟩ := parts.imp_left Apart.append_iff.mp
        rcases member with early | member
        · have before := gap chunk early last List.mem_cons_self
          omega
        rcases List.mem_cons.mp member with same | late
        · rw [same]
          exact lt_of_le_of_ne beyond touches
        · have after := behind chunk late
          omega

/-- The chunked maps are finite maps. -/
theorem chunks_refine_finite_map (map : ChunkedMap T) (number : ℕ) :
    haveItem map.chunks number = (map.item number).isSome ∧
    findItem map.chunks number = map.item number ∧
    (∃ kept : ChunkedMap T,
      removeAllStartingWith map.chunks number = kept.chunks ∧
      ∀ other, kept.item other =
        if other < number then map.item other else none) ∧
    (number < unsignedRange - 1 → map.item number = none → ∀ data,
      ∃ merged : ChunkedMap T,
        mergeInto map.chunks number data = some merged.chunks ∧
        ∀ other, merged.item other =
          if other = number then some data else map.item other) := by
  refine ⟨haveItem_eq map.apart, findItem_eq map.apart, ?_, ?_⟩
  · obtain ⟨apart, items⟩ := removeAllStartingWith_spec map.apart
    exact ⟨⟨_, apart⟩, rfl, items⟩
  · intro usual absent data
    obtain ⟨merged, done, apart, items⟩ := mergeInto_spec map.apart absent
      (by omega) data
    exact ⟨⟨merged, apart⟩, done, items⟩

/-- Two chunks with a gap of one item. -/
def gapChunks : ChunkedMap ℕ where
  chunks := [(3, [30, 40]), (6, [60])]
  apart := ⟨by decide, by decide⟩

theorem chunks_refine_finite_map_sample :
    ∃ merged : ChunkedMap ℕ,
      mergeInto gapChunks.chunks 5 50 = some merged.chunks ∧
      ∀ other, merged.item other =
        if other = 5 then some 50 else gapChunks.item other :=
  (chunks_refine_finite_map gapChunks 5).2.2.2 (by decide) rfl 50

example : mergeInto gapChunks.chunks 5 50 = some [(3, [30, 40, 50, 60])] :=
  rfl

end BlockChainSync

end Aecmio
