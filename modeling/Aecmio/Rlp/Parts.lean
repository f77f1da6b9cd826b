import Aecmio.Rlp.Canonical

/-!
# The parts of a payload

A reader that takes a list apart looks at the prefix of each item and not
into its payload.  A part is what it then takes for one item: the encoding of
a string, or a list prefix with any payload of the right length.
-/

namespace Aecmio

open Item

namespace RLP

/-- What a prefix claims to be one item. -/
inductive Part : Bytes → Prop where
  | data {content : Bytes} (small : content.length < readLimit) :
      Part (encodeData content)
  | list {content : Bytes} (small : content.length < readLimit) :
      Part (encodeList content)

namespace Part

variable {part : Bytes}

theorem framed (isPart : Part part) (rest : Bytes) :
    ∃ header content, Framed (part ++ rest) header content rest ∧
      header.length + content.length = part.length := by
  cases isPart with
  | @data content small =>
      refine ⟨_, _, framed_encodeData rest small, ?_⟩
      rw [encodeData_eq_append, List.length_append]
  | @list content small =>
      refine ⟨_, _, framed_encodeList rest small, ?_⟩
      rw [encodeList_eq_append, List.length_append]

theorem length_pos (isPart : Part part) : 0 < part.length := by
  cases isPart with
  | data small => exact encodeData_pos _
  | list small => exact encodeList_pos _

theorem ne_nil (isPart : Part part) : part ≠ [] :=
  List.ne_nil_of_length_pos isPart.length_pos

theorem sizeAsEncoded (isPart : Part part) (rest : Bytes) :
    RLP.sizeAsEncoded (part ++ rest) = .ok part.length := by
  obtain ⟨header, content, framed, length⟩ := isPart.framed rest
  rw [framed.sizeAsEncoded, length]

theorem construct (isPart : Part part) :
    RLP.construct part .throwIfTooSmall = .ok part := by
  obtain ⟨header, content, framed, -⟩ := isPart.framed []
  rw [List.append_nil] at framed
  exact framed.construct_throwIfTooSmall

theorem construct_veryStrict (isPart : Part part) :
    RLP.construct part .veryStrict = .ok part := by
  obtain ⟨header, content, framed, -⟩ := isPart.framed []
  rw [List.append_nil] at framed
  exact framed.construct_veryStrict

end Part

/-- The encoding of an item is a part. -/
theorem part_encode {item : Item} (small : Readable item) :
    Part item.encode := by
  cases item with
  | data content => exact .data small
  | list items => exact .list small

theorem part_of_construct {view constructed : Bytes} (nonempty : view ≠ [])
    (accepted : construct view .veryStrict = .ok constructed) :
    Part view := by
  obtain ⟨content, small, shape⟩ := canonical_of_construct nonempty accepted
  rcases shape with rfl | rfl
  · exact .data small
  · exact .list small

/-- What is read as one item starts with a part of that size. -/
theorem part_of_size {view : Bytes} {size : Nat} (nonempty : view ≠ [])
    (accepted : sizeAsEncoded view = .ok size) :
    ∃ part rest, Part part ∧ view = part ++ rest ∧ part.length = size := by
  obtain ⟨actual, inside⟩ := sizeAsEncoded_ok accepted
  obtain ⟨length, accepted', sum⟩ := length_of_actualSize nonempty actual
  obtain ⟨content, rest, same, small, shape⟩ :=
    canonical_of_length nonempty accepted' (by omega)
  have limit : content.length < readLimit := by omega
  have found : ∃ part, Part part ∧ view = part ++ rest := by
    rcases shape with ⟨-, split⟩ | ⟨-, split⟩
    · exact ⟨_, .data limit, split⟩
    · exact ⟨_, .list limit, split⟩
  obtain ⟨part, isPart, split⟩ := found
  have size' := isPart.sizeAsEncoded rest
  rw [← split, accepted] at size'
  exact ⟨part, rest, isPart, split, (Except.ok.inj size').symm⟩

theorem lengthPrefix_length_le_of_le (start : Nat) {size size' : Nat}
    (order : size ≤ size') :
    (lengthPrefix start size).length ≤ (lengthPrefix start size').length := by
  have digits : bytesRequired size ≤ bytesRequired size' := by
    rw [bytesRequired_le_iff]
    exact Nat.lt_of_le_of_lt order (lt_pow_bytesRequired size')
  unfold lengthPrefix
  split
  · split <;> simp
  · rw [if_neg (by omega)]
    simpa using digits

/-- A list is known from its payload. -/
theorem encodeList_injective : Function.Injective encodeList := by
  intro first second same
  have lengths := congrArg List.length same
  simp only [encodeList, List.length_append] at lengths
  have length : first.length = second.length := by
    rcases Nat.le_total first.length second.length with order | order
    · have shorter := lengthPrefix_length_le_of_le 0xc0 order
      omega
    · have shorter := lengthPrefix_length_le_of_le 0xc0 order
      omega
  simp only [encodeList, length] at same
  exact List.append_cancel_left same

theorem isList_of_size {content : Bytes}
    (small : content.length < sizeTRange) :
    isList (encodeList content) = true := by
  unfold encodeList lengthPrefix
  split
  · have first := toNat_ofNat_of_lt
      (show 0xc0 + content.length < 256 by omega)
    simp only [List.cons_append, isList, first]
    simp
  · have digits := RLPStream.bytesRequired_le_eight small
    have first := toNat_ofNat_of_lt
      (show 0xc0 + 55 + bytesRequired content.length < 256 by omega)
    simp only [List.cons_append, isList, first]
    simp
    omega

/-! ## Indexing -/

/-- What `operator[]` finds in a payload. -/
def nthPart : Nat → Bytes → Except RLPError Bytes
  | 0, content => do return content.take (← sizeAsEncoded content)
  | position + 1, content => do
      let size ← sizeAsEncoded content
      if size = 0 then return [] else nthPart position (content.drop size)

theorem sizeAsEncoded_nil : sizeAsEncoded [] = .ok 0 := rfl

theorem nthPart_nil (position : Nat) : nthPart position [] = .ok [] := by
  cases position <;> rfl

variable {parts : List Bytes}

theorem nthPart_parts (arePart : ∀ part ∈ parts, Part part) (rest : Bytes)
    {position : Nat} (inRange : position < parts.length) :
    nthPart position (parts.flatten ++ rest) = .ok parts[position] := by
  induction parts generalizing position with
  | nil => cases inRange
  | cons part others induction =>
      have isPart := arePart part List.mem_cons_self
      have size := isPart.sizeAsEncoded (others.flatten ++ rest)
      have positive := isPart.length_pos
      rw [List.flatten_cons, List.append_assoc]
      cases position with
      | zero =>
          simp [nthPart, size, bind, Except.bind, pure, Except.pure]
      | succ position =>
          have below := induction
            (fun other member => arePart other (List.mem_cons_of_mem _ member))
            (Nat.lt_of_succ_lt_succ inRange)
          simp only [nthPart, size, bind, Except.bind]
          rw [if_neg (by omega), List.drop_left, below]
          rfl

/-- Behind the last part there is nothing. -/
theorem nthPart_beyond (arePart : ∀ part ∈ parts, Part part) {position : Nat}
    (beyond : parts.length ≤ position) :
    nthPart position parts.flatten = .ok [] := by
  induction parts generalizing position with
  | nil => exact nthPart_nil position
  | cons part others induction =>
      have isPart := arePart part List.mem_cons_self
      have size := isPart.sizeAsEncoded others.flatten
      have positive := isPart.length_pos
      cases position with
      | zero => cases beyond
      | succ position =>
          have below := induction
            (fun other member => arePart other (List.mem_cons_of_mem _ member))
            (Nat.le_of_succ_le_succ beyond)
          rw [List.flatten_cons]
          simp only [nthPart, size, bind, Except.bind]
          rw [if_neg (by omega), List.drop_left, below]

/-- A payload that was indexed is a list of parts up to there. -/
theorem nthPart_ok {content part : Bytes} {position : Nat}
    (accepted : nthPart position content = .ok part) :
    ∃ (parts : List Bytes) (rest : Bytes), (∀ other ∈ parts, Part other) ∧
      content = parts.flatten ++ rest ∧
      (parts.length = position + 1 ∨ parts.length ≤ position ∧ rest = []) := by
  induction position generalizing content with
  | zero =>
      by_cases empty : content = []
      · exact ⟨[], [], nofun, by simp [empty], .inr ⟨Nat.le_refl _, rfl⟩⟩
      · cases size : sizeAsEncoded content with
        | error error => simp [nthPart, size, bind, Except.bind] at accepted
        | ok size' =>
            obtain ⟨first, rest, isPart, split, -⟩ := part_of_size empty size
            refine ⟨[first], rest, ?_, by simpa using split, .inl rfl⟩
            intro other member
            rw [List.mem_singleton.mp member]
            exact isPart
  | succ position induction =>
      by_cases empty : content = []
      · exact ⟨[], [], nofun, by simp [empty],
          .inr ⟨Nat.zero_le _, rfl⟩⟩
      · cases size : sizeAsEncoded content with
        | error error => simp [nthPart, size, bind, Except.bind] at accepted
        | ok size' =>
            obtain ⟨first, rest, isPart, split, length⟩ :=
              part_of_size empty size
            have positive := isPart.length_pos
            simp only [nthPart, size, bind, Except.bind] at accepted
            rw [if_neg (by omega), split, ← length, List.drop_left]
              at accepted
            obtain ⟨parts, rest', arePart, split', counted⟩ :=
              induction accepted
            refine ⟨first :: parts, rest', ?_, ?_, ?_⟩
            · intro other member
              rcases List.mem_cons.mp member with rfl | member
              · exact isPart
              · exact arePart other member
            · rw [split, split', List.flatten_cons, List.append_assoc]
            · rw [List.length_cons]
              rcases counted with exact_ | ⟨few, none⟩
              · exact .inl (by omega)
              · exact .inr ⟨by omega, none⟩

/-- The value of a method that uses the cache. -/
def outcome {α : Type} : EStateM.Result RLPError IndexCache α →
    Except RLPError α
  | .ok value _ => .ok value
  | .error error _ => .error error

theorem at_eq_outcome (view : Bytes) (position : Nat) :
    at_ view position = outcome ((index view position).run {}) := by
  unfold at_ outcome
  cases (index view position).run {} <;> rfl

theorem construct_take {rest : Bytes} {size : Nat}
    (accepted : sizeAsEncoded rest = .ok size) :
    construct (rest.take size) .throwIfTooSmall = .ok (rest.take size) := by
  by_cases empty : rest = []
  · rw [empty, List.take_nil]
    rfl
  · obtain ⟨part, after, isPart, split, length⟩ := part_of_size empty accepted
    rw [split, ← length, List.take_left]
    exact isPart.construct

theorem advance_eq {view content front rest : Bytes} {size : Nat}
    (payload : RLP.payload view = .ok content)
    (bounded : content.length < sizeTRange - 1)
    (split : content = front ++ rest)
    (accepted : sizeAsEncoded rest = .ok size) (rounds lastIndex : Nat) :
    outcome ((do
        advance view rounds
        lift (construct (← get).lastItem .throwIfTooSmall) :
          Indexing Bytes).run
        { lastIndex, lastEnd := front.length + size,
          lastItem := rest.take size }) = nthPart rounds rest := by
  induction rounds generalizing front rest size lastIndex with
  | zero =>
      simp only [advance, EStateM.run_bind, EStateM.run_pure, EStateM.run_get,
        construct_take accepted, lift]
      simp [outcome, nthPart, accepted, bind, Except.bind, pure, Except.pure]
  | succ rounds induction =>
      by_cases empty : rest = []
      · subst empty
        cases Except.ok.inj (sizeAsEncoded_nil.symm.trans accepted)
        simp only [advance, EStateM.run_bind, EStateM.run_get,
          EStateM.run_pure, List.take_nil, List.isEmpty_nil, if_true]
        rfl
      · obtain ⟨part, after, isPart, whole, length⟩ :=
          part_of_size empty accepted
        have positive := isPart.length_pos
        have taken : rest.take size = part := by
          rw [whole, ← length, List.take_left]
        have dropped : rest.drop size = after := by
          rw [whole, ← length, List.drop_left]
        have nonempty : part.isEmpty = false := by
          simpa using isPart.ne_nil
        have remaining : croppedFrom content (front.length + size) =
            after := by
          rw [croppedFrom_eq]
          · rw [split, whole, ← List.append_assoc, ← length,
              ← List.length_append, List.drop_left]
          · simp only [split, whole, List.length_append]
            omega
        have unfolded : nthPart (rounds + 1) rest = nthPart rounds after := by
          simp only [nthPart, accepted, bind, Except.bind]
          rw [if_neg (by omega), dropped]
        rw [unfolded]
        cases next : sizeAsEncoded after with
        | error error =>
            have stuck : nthPart rounds after = .error error := by
              cases rounds <;> simp [nthPart, next, bind, Except.bind]
            simp only [advance, EStateM.run_bind, EStateM.run_get, taken,
              nonempty, payload, lift, EStateM.run_pure, EStateM.run_modify,
              remaining, next, Bool.false_eq_true, if_false, stuck]
            rfl
        | ok size' =>
            have fits := (sizeAsEncoded_ok next).2
            have cropped' : cropped after 0 size' = after.take size' := by
              rw [cropped_eq ?_ (by omega), List.drop_zero]
              simp only [split, whole, List.length_append] at bounded
              omega
            have split' : content = (front ++ part) ++ after := by
              rw [split, whole, List.append_assoc]
            rw [← induction split' next (lastIndex + 1)]
            have ended : (after.take size').length = size' := by
              rw [List.length_take]
              omega
            simp only [advance, EStateM.run_bind, EStateM.run_get, taken,
              nonempty, payload, lift, EStateM.run_pure, EStateM.run_modify,
              remaining, next, cropped', ended, Bool.false_eq_true, if_false,
              List.length_append, length]

/-- `operator[]` takes the parts of the payload one after the other. -/
theorem at_eq {view content : Bytes} (payload : RLP.payload view = .ok content)
    (bounded : content.length < sizeTRange - 1) {position : Nat}
    (inRange : position < sizeTRange - 1) :
    at_ view position = nthPart position content := by
  rw [at_eq_outcome]
  cases size : sizeAsEncoded content with
  | error error =>
      have stuck : nthPart position content = .error error := by
        cases position <;> simp [nthPart, size, bind, Except.bind]
      simp only [index, EStateM.run_bind, EStateM.run_get, inRange, if_true,
        payload, lift, EStateM.run_pure, size, stuck]
      rfl
  | ok size' =>
      have fits := (sizeAsEncoded_ok size).2
      have taken : cropped content 0 size' = content.take size' := by
        rw [cropped_eq bounded (by omega), List.drop_zero]
      have advanced := advance_eq payload bounded
        (show content = [] ++ content from rfl) size position 0
      rw [List.length_nil, Nat.zero_add] at advanced
      rw [← advanced]
      simp only [index, EStateM.run_bind, EStateM.run_get, inRange, if_true,
        payload, lift, EStateM.run_pure, size, EStateM.run_modify, taken,
        Nat.sub_zero]

/-! ## Lists of parts -/

theorem length_le_flatten (arePart : ∀ part ∈ parts, Part part) :
    parts.length ≤ parts.flatten.length := by
  induction parts with
  | nil => exact Nat.le_refl _
  | cons part others induction =>
      have positive := (arePart part List.mem_cons_self).length_pos
      have below := induction fun other member =>
        arePart other (List.mem_cons_of_mem _ member)
      rw [List.flatten_cons, List.length_append, List.length_cons]
      omega

theorem itemsLoop_cons {fuel : Nat} {view : Bytes} (nonempty : view ≠ []) :
    itemsLoop (fuel + 1) view = (do
      let size ← sizeAsEncoded view
      return (← itemsLoop fuel (croppedFrom view size)) + 1) := by
  obtain ⟨first, tail, rfl⟩ := List.exists_cons_of_ne_nil nonempty
  rfl

theorem itemsLoop_parts (arePart : ∀ part ∈ parts, Part part) {fuel : Nat}
    (enough : parts.length ≤ fuel) :
    itemsLoop fuel parts.flatten = .ok parts.length := by
  induction parts generalizing fuel with
  | nil => cases fuel <;> rfl
  | cons part others induction =>
      have isPart := arePart part List.mem_cons_self
      have size := isPart.sizeAsEncoded others.flatten
      cases fuel with
      | zero => cases enough
      | succ fuel =>
          have below := induction
            (fun other member => arePart other (List.mem_cons_of_mem _ member))
            (Nat.le_of_succ_le_succ enough)
          have nonempty : part ++ others.flatten ≠ [] := by
            simp [isPart.ne_nil]
          have remaining : croppedFrom (part ++ others.flatten) part.length =
              others.flatten := by
            rw [croppedFrom_eq (by simp), List.drop_left]
          rw [List.flatten_cons, itemsLoop_cons nonempty]
          simp [size, remaining, below, bind, Except.bind, pure, Except.pure]

theorem itemsLoop_ok {fuel count : Nat} {view : Bytes}
    (accepted : itemsLoop fuel view = .ok count) :
    ∃ parts : List Bytes, (∀ part ∈ parts, Part part) ∧
      view = parts.flatten ∧ parts.length = count := by
  induction fuel generalizing view count with
  | zero =>
      cases view with
      | nil => exact ⟨[], nofun, rfl, Except.ok.inj accepted⟩
      | cons first tail => cases accepted
  | succ fuel induction =>
      by_cases empty : view = []
      · subst empty
        exact ⟨[], nofun, rfl, Except.ok.inj accepted⟩
      · rw [itemsLoop_cons empty] at accepted
        cases size : sizeAsEncoded view with
        | error error => simp [size, bind, Except.bind] at accepted
        | ok size' =>
            obtain ⟨part, rest, isPart, split, length⟩ :=
              part_of_size empty size
            have remaining : croppedFrom view size' = rest := by
              rw [croppedFrom_eq, split, ← length, List.drop_left]
              rw [split, List.length_append]
              omega
            simp only [size, remaining, bind, Except.bind] at accepted
            cases below : itemsLoop fuel rest with
            | error error => simp [below] at accepted
            | ok count' =>
                simp only [below, pure, Except.pure, Except.ok.injEq]
                  at accepted
                obtain ⟨parts, arePart, whole, counted⟩ := induction below
                refine ⟨part :: parts, ?_, ?_, ?_⟩
                · intro other member
                  rcases List.mem_cons.mp member with rfl | member
                  · exact isPart
                  · exact arePart other member
                · rw [split, whole, List.flatten_cons]
                · rw [List.length_cons]
                  omega

theorem itemCount_encodeList {content : Bytes}
    (small : content.length < readLimit) :
    itemCount (encodeList content) = itemsLoop content.length content := by
  have isList : isList (encodeList content) = true := by
    simpa using isList_encodeList [] small
  simp [itemCount, items, isList, payload_encodeList small, bind, Except.bind]

theorem itemCount_parts (arePart : ∀ part ∈ parts, Part part)
    (small : parts.flatten.length < readLimit) :
    itemCount (encodeList parts.flatten) = .ok parts.length := by
  rw [itemCount_encodeList small]
  exact itemsLoop_parts arePart (length_le_flatten arePart)

theorem itemCount_ok {content : Bytes} {count : Nat}
    (small : content.length < readLimit)
    (accepted : itemCount (encodeList content) = .ok count) :
    ∃ parts : List Bytes, (∀ part ∈ parts, Part part) ∧
      content = parts.flatten ∧ parts.length = count := by
  rw [itemCount_encodeList small] at accepted
  exact itemsLoop_ok accepted

theorem readLimit_lt : readLimit < sizeTRange - 1 := by
  rw [readLimit_eq, sizeTRange_eq]
  decide

theorem at_encodeList {content : Bytes} (small : content.length < readLimit)
    {position : Nat} (inRange : position < sizeTRange - 1) :
    at_ (encodeList content) position = nthPart position content :=
  at_eq (payload_encodeList small) (small.trans readLimit_lt) inRange

theorem at_encodeData {content : Bytes} (small : content.length < readLimit)
    {position : Nat} (inRange : position < sizeTRange - 1) :
    at_ (encodeData content) position = nthPart position content :=
  at_eq (payload_encodeData small) (small.trans readLimit_lt) inRange

theorem at_parts (arePart : ∀ part ∈ parts, Part part)
    (small : parts.flatten.length < readLimit) {position : Nat}
    (inRange : position < parts.length) :
    at_ (encodeList parts.flatten) position = .ok parts[position] := by
  have counted := length_le_flatten arePart
  have limit := readLimit_lt
  rw [at_encodeList small (by omega)]
  simpa using nthPart_parts arePart [] inRange

/-- The parts from one position on, by their positions. -/
theorem mapM_at_parts (arePart : ∀ part ∈ parts, Part part)
    (small : parts.flatten.length < readLimit) (first : Nat) :
    (List.range' first (parts.length - first)).mapM
      (at_ (encodeList parts.flatten)) = .ok (parts.drop first) := by
  have general : ∀ count, ∀ first, parts.length - first = count →
      (List.range' first count).mapM (at_ (encodeList parts.flatten)) =
        .ok (parts.drop first) := by
    intro count
    induction count with
    | zero =>
        intro first none
        rw [List.drop_eq_nil_of_le (by omega)]
        rfl
    | succ count induction =>
        intro first some_
        have inRange : first < parts.length := by omega
        have below := induction (first + 1) (by omega)
        rw [List.range'_succ, List.mapM_cons, at_parts arePart small inRange,
          List.drop_eq_getElem_cons inRange]
        simp [below, bind, Except.bind, pure, Except.pure]
  exact general _ first rfl

end RLP

end Aecmio
