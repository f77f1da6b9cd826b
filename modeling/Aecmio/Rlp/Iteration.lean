import Aecmio.Rlp.Raising

/-!
# Iterating over a list with bytes behind it

The end iterator stands at the end of the data, and the iterator that has
passed the last item at the end of the payload.  Where these are different
places, the loop over a list that is not malformed never ends.
-/

namespace Aecmio

namespace RLP

/-! ## Well-formed payloads -/

/-- A payload is a sequence of parts, or it has bytes behind some parts where
no item can be read. -/
theorem exists_parts (content : Bytes) :
    ∃ parts : List Bytes, (∀ part ∈ parts, Part part) ∧
      (content = parts.flatten ∨ ∃ bad error, content = parts.flatten ++ bad ∧
        bad ≠ [] ∧ sizeAsEncoded bad = .error error) := by
  induction measured : content.length using Nat.strong_induction_on
    generalizing content with
  | _ length induction =>
      by_cases empty : content = []
      · exact ⟨[], nofun, .inl empty⟩
      · cases size : sizeAsEncoded content with
        | error error =>
            exact ⟨[], nofun, .inr ⟨content, error, rfl, empty, size⟩⟩
        | ok size' =>
            obtain ⟨part, rest, isPart, split, -⟩ := part_of_size empty size
            have positive := isPart.length_pos
            have total := congrArg List.length split
            rw [List.length_append] at total
            obtain ⟨parts, areParts, shape⟩ :=
              induction rest.length (by omega) rest rfl
            refine ⟨part :: parts, ?_, ?_⟩
            · exact List.forall_mem_cons.mpr ⟨isPart, areParts⟩
            · rw [List.flatten_cons]
              rcases shape with whole | ⟨bad, error, whole, nonempty, fails⟩
              · exact .inl (by rw [split, whole])
              · refine .inr ⟨bad, error, ?_, nonempty, fails⟩
                rw [split, whole, List.append_assoc]

/-- The count of the items stops where no item can be read. -/
theorem itemsLoop_malformed {parts : List Bytes} {bad : Bytes}
    {error : RLPError} (areParts : ∀ part ∈ parts, Part part)
    (nonempty : bad ≠ []) (fails : sizeAsEncoded bad = .error error)
    {fuel : Nat} (enough : parts.length < fuel) :
    itemsLoop fuel (parts.flatten ++ bad) = .error error := by
  induction parts generalizing fuel with
  | nil =>
      cases fuel with
      | zero => cases enough
      | succ fuel =>
          rw [List.flatten_nil, List.nil_append, itemsLoop_cons nonempty, fails]
          rfl
  | cons part others induction =>
      cases fuel with
      | zero => cases enough
      | succ fuel =>
          have isPart := areParts part List.mem_cons_self
          have size := isPart.sizeAsEncoded (others.flatten ++ bad)
          have below := induction
            (fun other member => areParts other (List.mem_cons_of_mem _ member))
            (Nat.lt_of_succ_lt_succ enough)
          have some : part ++ (others.flatten ++ bad) ≠ [] := by
            simp [isPart.ne_nil]
          have remaining : croppedFrom (part ++ (others.flatten ++ bad))
              part.length = others.flatten ++ bad := by
            rw [croppedFrom_eq (by simp), List.drop_left]
          rw [List.flatten_cons, List.append_assoc, itemsLoop_cons some, size]
          simp only [bind, Except.bind, remaining, below]

/-! ## Positions -/

/-- The iterator stands on `current`; `after` is what is left of the payload
and `rest` what follows it. -/
structure Placed (view front current after rest : Bytes)
    (position : Iterator) : Prop where
  split : view = front ++ (current ++ (after ++ rest))
  remaining : position.remaining = after.length
  currentItem : position.currentItem = ⟨some front.length, current.length⟩

namespace Placed

variable {view front current part after others rest : Bytes}
  {position : Iterator} {error : RLPError}

theorem atEnd (placed : Placed view front current after rest position) :
    position.currentItem = (end_ view).currentItem ↔
      current = [] ∧ after = [] ∧ rest = [] := by
  rw [placed.currentItem]
  simp only [end_, VectorRef.whole, VectorRef.croppedFrom, le_refl, if_true,
    Nat.zero_add, Nat.sub_self, VectorRef.mk.injEq, Option.some.injEq,
    List.length_eq_zero_iff]
  have total := congrArg List.length placed.split
  simp only [List.length_append] at total
  constructor
  · rintro ⟨front, current⟩
    rw [current, List.length_nil] at total
    exact ⟨current, List.length_eq_zero_iff.mp (by omega),
      List.length_eq_zero_iff.mp (by omega)⟩
  · rintro ⟨rfl, rfl, rfl⟩
    simp only [List.length_nil] at total
    exact ⟨by omega, rfl⟩

theorem dereference (placed : Placed view front current after rest position) :
    position.dereference view = construct current .veryStrict := by
  have contents : position.currentItem.contents view = current := by
    simp [placed.currentItem, VectorRef.contents, placed.split]
  rw [Iterator.dereference, contents]

theorem next (placed : Placed view front current after rest position) :
    position.currentItem.next.data = some (front ++ current).length := by
  simp [placed.currentItem, VectorRef.next]

theorem viewed (placed : Placed view front current after rest position) :
    VectorRef.contents view ⟨some (front ++ current).length, after.length⟩ =
      after := by
  simp [VectorRef.contents, placed.split]

/-- Behind the last item the iterator keeps its place. -/
theorem increment_last (placed : Placed view front current [] rest position) :
    ∃ following, position.increment view = .ok following ∧
      Placed view (front ++ current) [] [] rest following := by
  have none : position.remaining = 0 := placed.remaining
  refine ⟨⟨0, ⟨some (front ++ current).length, 0⟩⟩, ?_, ?_, rfl, rfl⟩
  · simp [Iterator.increment, none, placed.next, pure, Except.pure]
  · simpa using placed.split

theorem increment_part
    (placed : Placed view front current (part ++ others) rest position)
    (isPart : Part part)
    (small : (part ++ others).length < sizeTRange - 1) :
    ∃ following, position.increment view = .ok following ∧
      Placed view (front ++ current) part others rest following := by
  have positive := isPart.length_pos
  have more : (part ++ others).length ≠ 0 := by
    rw [List.length_append]
    omega
  have inside : part.length ≤ (part ++ others).length := by
    rw [List.length_append]
    omega
  refine ⟨⟨(part ++ others).length - part.length,
    ⟨some (front ++ current).length, part.length⟩⟩, ?_, ?_, ?_, rfl⟩
  · simp only [Iterator.increment, placed.remaining, if_pos more, placed.next,
      placed.viewed, isPart.sizeAsEncoded, bind, Except.bind,
      cropped_head inside small, Nat.min_eq_right inside]
    rfl
  · simpa using placed.split
  · simp

theorem increment_malformed
    (placed : Placed view front current after rest position)
    (nonempty : after ≠ []) (fails : sizeAsEncoded after = .error error) :
    position.increment view = .error error := by
  have more : after.length ≠ 0 :=
    fun none => nonempty (List.length_eq_zero_iff.mp none)
  simp only [Iterator.increment, placed.remaining, if_pos more, placed.next,
    placed.viewed, fails]
  rfl

/-! ## Visited items -/

/-- Where bytes follow the payload, the loop does not end behind it. -/
theorem diverges (placed : Placed view front [] [] rest position)
    (more : rest ≠ []) (fuel : Nat) :
    iterateFrom view fuel position = .error .diverges := by
  induction fuel generalizing front position with
  | zero => rfl
  | succ fuel induction =>
      have notEnd : position.currentItem ≠ (end_ view).currentItem :=
        fun same => more (placed.atEnd.mp same).2.2
      obtain ⟨following, moved, there⟩ := placed.increment_last
      have visited : iterateFrom view (fuel + 1) position =
          (iterateFrom view fuel following).map ([] :: ·) := by
        rw [iterateFrom, if_neg notEnd, placed.dereference, moved]
        rfl
      rw [visited, induction there]
      rfl

theorem visit (placed : Placed view front part after rest position)
    (isPart : Part part) {following : Iterator}
    (moved : position.increment view = .ok following) (fuel : Nat) :
    iterateFrom view (fuel + 1) position =
      (iterateFrom view fuel following).map (part :: ·) := by
  have notEnd : position.currentItem ≠ (end_ view).currentItem :=
    fun same => isPart.ne_nil (placed.atEnd.mp same).1
  rw [iterateFrom, if_neg notEnd, placed.dereference,
    isPart.construct_veryStrict, moved]
  rfl

/-- The loop gets to the last part, with the items before it visited. -/
theorem reach {parts : List Bytes} {tail : Bytes}
    (placed : Placed view front part (parts.flatten ++ tail) rest position)
    (areParts : ∀ other ∈ part :: parts, Part other)
    (small : (parts.flatten ++ tail).length < sizeTRange - 1) :
    ∃ before last visited final,
      Placed view before last tail rest final ∧ Part last ∧
        visited ++ [last] = part :: parts ∧
        ∀ fuel, iterateFrom view (fuel + visited.length) position =
          (iterateFrom view fuel final).map (visited ++ ·) := by
  induction parts generalizing front part position with
  | nil =>
      refine ⟨front, part, [], position, placed,
        areParts part List.mem_cons_self, rfl, ?_⟩
      intro fuel
      cases iterateFrom view fuel position <;> rfl
  | cons other others induction =>
      have here := areParts part List.mem_cons_self
      have rest := List.forall_mem_cons.mp areParts |>.2
      rw [List.flatten_cons, List.append_assoc] at placed small
      obtain ⟨following, moved, there⟩ := placed.increment_part
        (rest other List.mem_cons_self) small
      rw [List.length_append] at small
      obtain ⟨before, last, visited, final, final_placed, isLast, whole,
        walked⟩ := induction there rest (by omega)
      refine ⟨before, last, part :: visited, final, final_placed, isLast, ?_,
        ?_⟩
      · rw [List.cons_append, whole]
      · intro fuel
        rw [List.length_cons, ← Nat.add_assoc, placed.visit here moved, walked]
        cases iterateFrom view fuel final <;> rfl

end Placed

/-! ## The whole loop -/

/-- The range loop, cut off after a number of rounds. -/
def walk (view : Bytes) (fuel : Nat) : Except RLPError (List Bytes) := do
  iterateFrom view fuel (← begin_ view)

/-- The loop throws, or it ends and has visited the items of the payload. -/
def VisitsItems (view : Bytes) : Prop :=
  ∃ enough, ∀ fuel, enough ≤ fuel →
    (∃ error, walk view fuel = .error error ∧ error.isException = true) ∨
      ∃ parts, walk view fuel = .ok parts ∧ (∀ part ∈ parts, Part part) ∧
        payload view = .ok parts.flatten

theorem visitsItems_of_error {view : Bytes} {error : RLPError} (rounds : Nat)
    (fails : ∀ fuel, walk view (fuel + rounds) = .error error)
    (exception : error.isException = true) : VisitsItems view := by
  refine ⟨rounds, fun fuel enough => .inl ⟨error, ?_, exception⟩⟩
  have failed := fails (fuel - rounds)
  rwa [Nat.sub_add_cancel enough] at failed

theorem not_visitsItems_of_diverges {view : Bytes} (rounds : Nat)
    (stuck : ∀ fuel, walk view (fuel + rounds) = .error .diverges) :
    ¬ VisitsItems view := by
  rintro ⟨enough, outcome⟩
  rcases outcome (enough + rounds) (Nat.le_add_right _ _) with
    ⟨error, failed, exception⟩ | ⟨parts, returned, -⟩
  · rw [stuck] at failed
    cases failed
    cases exception
  · rw [stuck] at returned
    cases returned

section

variable {content rest : Bytes} {view : Bytes}

/-- A list that is read, with bytes behind it. -/
structure ListThen (view content rest : Bytes) : Prop where
  isList : isList view = true
  split : view = listHeader content ++ (content ++ rest)
  payloadRef : payloadRef view =
    .ok ⟨some (listHeader content).length, content.length⟩
  actualSize : actualSize view =
    .ok ((listHeader content).length + content.length)
  small : content.length < sizeTRange - 1

namespace ListThen

theorem contents (listed : ListThen view content rest) :
    VectorRef.contents view
      ⟨some (listHeader content).length, content.length⟩ = content := by
  simp [VectorRef.contents, listed.split]

theorem payload (listed : ListThen view content rest) :
    RLP.payload view = .ok content := by
  rw [RLP.payload, listed.payloadRef]
  exact congrArg Except.ok listed.contents

theorem itemCount (listed : ListThen view content rest) :
    RLP.itemCount view = itemsLoop content.length content := by
  rw [RLP.itemCount, if_pos listed.isList, items, if_pos listed.isList,
    listed.payload]
  rfl

theorem actualSize_iff (listed : ListThen view content rest) :
    RLP.actualSize view = .ok view.length ↔ rest = [] := by
  have total := congrArg List.length listed.split
  simp only [List.length_append] at total
  rw [listed.actualSize, Except.ok.injEq]
  constructor
  · intro whole
    exact List.length_eq_zero_iff.mp (by omega)
  · rintro rfl
    rw [total, List.length_nil]
    omega

theorem begin_nil (listed : ListThen view [] rest) :
    ∃ position, begin_ view = .ok position ∧
      Placed view (listHeader []) [] [] rest position := by
  refine ⟨⟨0, ⟨some (listHeader []).length, 0⟩⟩, ?_, ?_, rfl, rfl⟩
  · rw [begin_, if_pos listed.isList, listed.payloadRef]
    rfl
  · simpa using listed.split

theorem begin_part {part others : Bytes}
    (listed : ListThen view (part ++ others) rest) (isPart : Part part) :
    ∃ position, begin_ view = .ok position ∧
      Placed view (listHeader (part ++ others)) part others rest position := by
  have inside : part.length ≤ (part ++ others).length := by
    rw [List.length_append]
    omega
  refine ⟨⟨(part ++ others).length - part.length,
    ⟨some (listHeader (part ++ others)).length, part.length⟩⟩, ?_, ?_, ?_, rfl⟩
  · simp only [begin_, if_pos listed.isList, listed.payloadRef, bind,
      Except.bind, listed.contents, isPart.sizeAsEncoded,
      cropped_head inside listed.small]
    rfl
  · simpa using listed.split
  · simp

theorem begin_malformed {error : RLPError}
    (listed : ListThen view content rest)
    (fails : sizeAsEncoded content = .error error) :
    begin_ view = .error error := by
  simp only [begin_, if_pos listed.isList, listed.payloadRef, bind,
    Except.bind, listed.contents, fails]

theorem walk_of_begin {position : Iterator}
    (start : begin_ view = .ok position) (fuel : Nat) :
    walk view fuel = iterateFrom view fuel position := by
  rw [walk, start]
  rfl

/-- A payload that is not malformed is visited if nothing follows it. -/
theorem visits_parts_iff {parts : List Bytes}
    (areParts : ∀ part ∈ parts, Part part)
    (listed : ListThen view parts.flatten rest) :
    VisitsItems view ↔ rest = [] := by
  -- the place behind the last item, after the items before it
  have found : ∃ before position, Placed view before [] [] rest position ∧
      ∀ fuel, walk view (fuel + parts.length) =
        (iterateFrom view fuel position).map (parts ++ ·) := by
    cases parts with
    | nil =>
        obtain ⟨position, start, placed⟩ := listed.begin_nil
        refine ⟨_, position, placed, fun fuel => ?_⟩
        rw [List.length_nil, Nat.add_zero, walk_of_begin start]
        cases iterateFrom view fuel position <;> rfl
    | cons part others =>
        rw [List.flatten_cons] at listed
        have isPart := areParts part List.mem_cons_self
        have small := listed.small
        rw [List.length_append] at small
        obtain ⟨position, start, placed⟩ := listed.begin_part isPart
        rw [← List.append_nil others.flatten] at placed
        obtain ⟨before, last, visited, final, atLast, isLast, whole,
          walked⟩ := placed.reach areParts (by
            rw [List.append_nil]
            omega)
        obtain ⟨following, moved, there⟩ := atLast.increment_last
        refine ⟨_, following, there, fun fuel => ?_⟩
        have rounds : fuel + (part :: others).length =
            fuel + 1 + visited.length := by
          rw [← whole, List.length_append, List.length_singleton]
          omega
        rw [walk_of_begin start, rounds, walked, atLast.visit isLast moved,
          ← whole]
        cases iterateFrom view fuel following <;> simp [Except.map]
  obtain ⟨before, position, placed, walked⟩ := found
  by_cases finished : rest = []
  · refine iff_of_true ⟨1 + parts.length, fun fuel enough => .inr
      ⟨parts, ?_, areParts, listed.payload⟩⟩ finished
    have atEnd : position.currentItem = (end_ view).currentItem :=
      placed.atEnd.mpr ⟨rfl, rfl, finished⟩
    obtain ⟨more, rfl⟩ : ∃ more, fuel = more + 1 + parts.length :=
      ⟨fuel - (1 + parts.length), by omega⟩
    rw [walked, iterateFrom, if_pos atEnd]
    simp [Except.map]
  · refine iff_of_false (not_visitsItems_of_diverges parts.length ?_) finished
    intro fuel
    rw [walked, placed.diverges finished]
    rfl

/-- A malformed payload makes the loop throw. -/
theorem visits_malformed {parts : List Bytes} {bad : Bytes}
    {error : RLPError} (areParts : ∀ part ∈ parts, Part part)
    (listed : ListThen view (parts.flatten ++ bad) rest) (nonempty : bad ≠ [])
    (fails : sizeAsEncoded bad = .error error) : VisitsItems view := by
  have exception := sizeAsEncoded_raises bad error fails
  cases parts with
  | nil =>
      have start := listed.begin_malformed fails
      apply visitsItems_of_error 0 _ exception
      intro fuel
      rw [walk, start]
      rfl
  | cons part others =>
      rw [List.flatten_cons, List.append_assoc] at listed
      have isPart := areParts part List.mem_cons_self
      have small := listed.small
      rw [List.length_append] at small
      obtain ⟨position, start, placed⟩ := listed.begin_part isPart
      obtain ⟨before, last, visited, final, atLast, isLast, whole, walked⟩ :=
        placed.reach areParts (by omega)
      have stuck := atLast.increment_malformed nonempty fails
      have notEnd : final.currentItem ≠ (end_ view).currentItem :=
        fun same => isLast.ne_nil (atLast.atEnd.mp same).1
      apply visitsItems_of_error (1 + visited.length) _ exception
      intro fuel
      rw [walk_of_begin start, ← Nat.add_assoc, walked, iterateFrom,
        if_neg notEnd, atLast.dereference, isLast.construct_veryStrict, stuck]
      rfl

theorem visits_iff (listed : ListThen view content rest) :
    VisitsItems view ↔
      rest = [] ∨ ∃ error, RLP.itemCount view = .error error := by
  obtain ⟨parts, areParts, rfl | ⟨bad, error, rfl, nonempty, fails⟩⟩ :=
    exists_parts content
  · have counted : RLP.itemCount view = .ok parts.length := by
      rw [listed.itemCount]
      exact itemsLoop_parts areParts (length_le_flatten areParts)
    rw [visits_parts_iff areParts listed, counted]
    simp
  · have counted : RLP.itemCount view = .error error := by
      rw [listed.itemCount]
      apply itemsLoop_malformed areParts nonempty fails
      have positive := List.length_pos_iff.mpr nonempty
      have parts_le := length_le_flatten areParts
      rw [List.length_append]
      omega
    exact iff_of_true (visits_malformed areParts listed nonempty fails)
      (.inr ⟨error, counted⟩)

end ListThen

end

/-- A constructor that returns a list has kept the data. -/
theorem construct_list {data view : Bytes} {flags : Strictness}
    (constructed : construct data flags = .ok view)
    (list : isList view = true) : view = data := by
  have kept : view = data ∨ view = [] := by
    obtain ⟨canon, onFail, tooBig, tooSmall⟩ := flags
    cases size : actualSize data with
    | error error =>
        cases tooBig <;> cases tooSmall <;>
          simp_all [construct, bind, Except.bind, pure, Except.pure]
    | ok total =>
        have null : actualSize [] = .ok 0 := rfl
        by_cases big : total < data.length <;>
        by_cases small : data.length < total <;>
        cases tooBig <;> cases tooSmall <;> cases onFail <;>
          simp [construct, size, null, bind, Except.bind, pure, Except.pure,
            throw, throwThe, MonadExceptOf.throw, big, small] at constructed <;>
          simp [constructed]
  rcases kept with same | none
  · exact same
  · rw [none] at list
    cases list

theorem walk_of_payloadRef {view : Bytes} {error : RLPError}
    (list : isList view = true) (fails : payloadRef view = .error error)
    (fuel : Nat) : walk view fuel = .error error := by
  rw [walk, begin_, if_pos list, fails]
  rfl

theorem itemCount_of_payloadRef {view : Bytes} {error : RLPError}
    (list : isList view = true) (fails : payloadRef view = .error error) :
    itemCount view = .error error := by
  rw [itemCount, if_pos list, items, if_pos list, payload, fails]
  rfl

theorem itemCount_of_null {view : Bytes} (list : isList view = true)
    (null : payloadRef view = .ok .null) : itemCount view = .ok 0 := by
  rw [itemCount, if_pos list, items, if_pos list, payload, null]
  rfl

theorem not_isData {view : Bytes} (list : isList view = true) :
    isData view = false := by
  cases view with
  | nil => rfl
  | cons first rest =>
      simp only [isList, isData, decide_eq_true_eq, decide_eq_false_iff_not]
        at list ⊢
      omega

theorem payloadRef_null {view : Bytes} {size : Nat}
    (length : RLP.length view = .ok size)
    (beyond : ¬ payloadOffset view + size ≤ view.length)
    (inside : ¬ view.length < size) : payloadRef view = .ok .null := by
  have sum : (payloadOffset view + size) % sizeTRange =
      payloadOffset view + size :=
    Nat.mod_eq_of_lt (payloadOffset_add_length_lt length)
  have outside : ¬ (payloadOffset view ≤ view.length ∧ size ≤ view.length ∧
      (payloadOffset view + size) % sizeTRange ≤ view.length) := by
    rw [sum]
    exact fun all => beyond all.2.2
  have crop : (VectorRef.whole view).cropped (payloadOffset view) size =
      .null := if_neg outside
  simp only [payloadRef, length, bind, Except.bind, pure, Except.pure,
    if_neg inside, crop]

/-- A payload that does not lie inside the data is null, and the loop over it
has no end. -/
theorem not_visits_null {view : Bytes} (list : isList view = true)
    (null : payloadRef view = .ok .null) : ¬ VisitsItems view := by
  have stuck : ∀ fuel, iterateFrom view fuel ⟨0, .null⟩ =
      .error .diverges := by
    intro fuel
    induction fuel with
    | zero => rfl
    | succ fuel induction =>
        have notEnd : VectorRef.null ≠ (end_ view).currentItem := by
          simp [VectorRef.null, end_, VectorRef.croppedFrom, VectorRef.whole]
        have visited : iterateFrom view (fuel + 1) ⟨0, .null⟩ =
            (iterateFrom view fuel ⟨0, .null⟩).map ([] :: ·) := by
          rw [iterateFrom, if_neg notEnd]
          rfl
        rw [visited, induction]
        rfl
  apply not_visitsItems_of_diverges 0
  intro fuel
  rw [walk, begin_, if_pos list, null]
  exact stuck fuel

end RLP

/-- The loop over a list throws or visits the items of its payload, if and
only if the data ends with the list or counting the items throws. -/
theorem RLP.iterate_visits_iff {data view : Bytes} {flags : Strictness}
    (bounded : data.length < sizeTRange - 1)
    (constructed : RLP.construct data flags = .ok view)
    (list : RLP.isList view = true) :
    RLP.VisitsItems view ↔ RLP.actualSize data = .ok data.length ∨
      ∃ error, RLP.itemCount data = .error error := by
  obtain rfl := RLP.construct_list constructed list
  have nonempty : view ≠ [] := by
    rintro rfl
    cases list
  cases size : RLP.length view with
  | error error =>
      have fails : RLP.payloadRef view = .error error := by
        rw [RLP.payloadRef, size]
        rfl
      have exception := RLP.length_raises view error size
      exact iff_of_true (RLP.visitsItems_of_error 0
        (RLP.walk_of_payloadRef list fails) exception)
        (.inr ⟨error, RLP.itemCount_of_payloadRef list fails⟩)
  | ok size' =>
      by_cases long : view.length < size'
      · have fails : RLP.payloadRef view = .error .badRLP := by
          rw [RLP.payloadRef, size]
          exact if_pos long
        exact iff_of_true (RLP.visitsItems_of_error 0
          (RLP.walk_of_payloadRef list fails) rfl)
          (.inr ⟨_, RLP.itemCount_of_payloadRef list fails⟩)
      by_cases fits : RLP.payloadOffset view + size' ≤ view.length
      · obtain ⟨content, rest, same, small, shape⟩ :=
          RLP.canonical_of_length nonempty size fits
        have limit : content.length < RLP.readLimit := by omega
        have split : view = Item.encodeList content ++ rest := by
          rcases shape with ⟨isData, -⟩ | ⟨-, split⟩
          · exact absurd isData (by simp [RLP.not_isData list])
          · exact split
        have framed := RLP.framed_encodeList rest limit
        rw [← split] at framed
        have listed : RLP.ListThen view content rest := by
          refine ⟨list, ?_, framed.payloadRef bounded, framed.actualSize,
            limit.trans RLP.readLimit_lt⟩
          rw [← List.append_assoc]
          exact framed.split
        rw [listed.visits_iff, listed.actualSize_iff]
      · have null := RLP.payloadRef_null size fits long
        refine iff_of_false (RLP.not_visits_null list null) ?_
        rintro (whole | ⟨error, failed⟩)
        · obtain ⟨size'', found, sum⟩ :=
            RLP.length_of_actualSize nonempty whole
          rw [size] at found
          cases found
          omega
        · rw [RLP.itemCount_of_null list null] at failed
          cases failed

/-- The list of the numbers one and two, and nothing behind it. -/
theorem RLP.iterate_visits_iff_sample :
    RLP.VisitsItems [0xc2, 0x01, 0x02] :=
  (@RLP.iterate_visits_iff [0xc2, 0x01, 0x02] _ .laissezFaire (by decide) rfl
    (by decide)).mpr (.inl (by decide))

/-- With a byte behind the list the loop has no end. -/
theorem RLP.iterate_trailing_sample :
    RLP.construct [0xc1, 0x01, 0x00] .laissezFaire =
        .ok [0xc1, 0x01, 0x00] ∧
      RLP.isList [0xc1, 0x01, 0x00] = true ∧
      ¬ RLP.VisitsItems [0xc1, 0x01, 0x00] := by
  refine ⟨rfl, rfl, ?_⟩
  rw [@RLP.iterate_visits_iff [0xc1, 0x01, 0x00] _ .laissezFaire (by decide)
    rfl rfl]
  have counted : RLP.itemCount [0xc1, 0x01, 0x00] = .ok 1 := by decide
  rintro (whole | ⟨error, failed⟩)
  · exact absurd whole (by decide)
  · rw [counted] at failed
    cases failed

end Aecmio
