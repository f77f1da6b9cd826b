import Aecmio.Rlp.Reading

/-!
# Writing an item to a stream

A `Script` says how a tree is written: each list either by
`appendList(count)` followed by its items, or by `appendList` of the payload
written to a stream of its own.  Whatever the script and whatever lists are
open, writing it has the effect of appending the canonical encoding of the
tree as one item.
-/

namespace Aecmio

open Item

/-- A tree of items together with the way each list is written. -/
inductive Script where
  | data (content : Bytes)
  | counted (items : List Script)
  | encoded (items : List Script)

namespace Script

mutual

def item : Script → Item
  | .data content => .data content
  | .counted items => .list (itemAll items)
  | .encoded items => .list (itemAll items)

def itemAll : List Script → List Item
  | [] => []
  | script :: scripts => script.item :: itemAll scripts

end

mutual

def write : Script → RLPStream → Except RLPError RLPStream
  | .data content, stream => stream.append content
  | .counted items, stream => do
      writeAll items (← stream.appendList items.length)
  | .encoded items, stream => do
      let inner ← writeAll items {}
      stream.appendListPayload (← inner.result)

def writeAll : List Script → RLPStream → Except RLPError RLPStream
  | [], stream => .ok stream
  | script :: scripts, stream => do writeAll scripts (← script.write stream)

end

mutual

/-- The script that announces every list by its count. -/
def ofItem : Item → Script
  | .data content => .data content
  | .list items => .counted (ofItemAll items)

def ofItemAll : List Item → List Script
  | [] => []
  | item :: items => ofItem item :: ofItemAll items

end

theorem item_ofItem (item : Item) : (ofItem item).item = item := by
  induction item using Item.induction with
  | data content => rfl
  | list items induction =>
      have all : ∀ tail : List Item, (∀ item ∈ tail, item ∈ items) →
          itemAll (ofItemAll tail) = tail := by
        intro tail
        induction tail with
        | nil =>
            intro _
            rfl
        | cons head tail tailInduction =>
            intro included
            simp only [ofItemAll, itemAll]
            rw [induction head (included head (by simp)),
              tailInduction (fun item member =>
                included item (by simp [member]))]
      simp only [ofItem, Script.item]
      rw [all items (fun _ member => member)]

@[simp] theorem length_itemAll (scripts : List Script) :
    (itemAll scripts).length = scripts.length := by
  induction scripts with
  | nil => rfl
  | cons script scripts induction => simp [itemAll, induction]

theorem itemAll_append (left right : List Script) :
    itemAll (left ++ right) = itemAll left ++ itemAll right := by
  induction left with
  | nil => rfl
  | cons script scripts induction => simp [itemAll, induction]

theorem itemAll_take (scripts : List Script) (count : Nat) :
    itemAll (scripts.take count) = (itemAll scripts).take count := by
  induction scripts generalizing count with
  | nil => simp [itemAll]
  | cons script scripts induction =>
      cases count with
      | zero => rfl
      | succ count => simp [itemAll, induction]

end Script

namespace RLPStream

variable {content payload : Bytes} {stream : RLPStream}

theorem bytesRequired_le_eight {size : Nat} (small : size < sizeTRange) :
    bytesRequired size ≤ 8 := by
  rw [bytesRequired_le_iff]
  exact small

theorem closingPrefix_eq {size : Nat} (small : size < sizeTRange) :
    closingPrefix size = .ok (lengthPrefix 192 size) := by
  have digits := bytesRequired_le_eight small
  unfold closingPrefix lengthPrefix
  by_cases short : size < 56
  · simp [short]
  · have fits : 247 + bytesRequired size ≤ 255 := by omega
    simp [short, fits]

theorem pushCount_eq {size base start : Nat} (small : size < sizeTRange)
    (long : ¬ size < 56) (family : base = start + 55) (bound : start ≤ 192) :
    pushCount size base stream =
      .ok { stream with out := stream.out ++ lengthPrefix start size } := by
  have digits := bytesRequired_le_eight small
  have fits : ¬ 255 < bytesRequired size + base := by omega
  have order : bytesRequired size + base =
      start + 55 + bytesRequired size := by omega
  simp only [pushCount, if_neg fits]
  simp [lengthPrefix, long, order]

/-- Appending a string is appending its encoding as one item. -/
theorem append_eq (small : content.length < sizeTRange) :
    stream.append content = stream.appendRaw (encodeData content) 1 := by
  cases itself : standsForItself content with
  | true => simp [append, appendRaw, itself, encodeData, bind, Except.bind,
      pure, Except.pure]
  | false =>
      by_cases short : content.length < 56
      · simp [append, appendRaw, itself, encodeData, lengthPrefix, short,
          bind, Except.bind, pure, Except.pure, noteAppended, Nat.add_comm]
      · have header : stream.pushCount content.length 183 =
            .ok { stream with out :=
              stream.out ++ lengthPrefix 128 content.length } :=
          pushCount_eq small short rfl (by omega)
        simp [append, appendRaw, itself, encodeData, short, header,
          bind, Except.bind, noteAppended]

/-- Appending an encoded payload as a list is appending the list's encoding
as one item. -/
theorem appendListPayload_eq (small : payload.length < sizeTRange) :
    stream.appendListPayload payload =
      stream.appendRaw (encodeList payload) 1 := by
  by_cases short : payload.length < 56
  · simp [appendListPayload, appendRaw, encodeList, lengthPrefix, short,
      bind, Except.bind, pure, Except.pure, Nat.add_comm]
  · have header : stream.pushCount payload.length 247 =
        .ok { stream with out :=
          stream.out ++ lengthPrefix 192 payload.length } :=
      pushCount_eq small short rfl (by omega)
    simp [appendListPayload, appendRaw, encodeList, short, header, bind,
      Except.bind]

/-- An item that is not the last one of the innermost open list. -/
theorem appendRaw_open {out encoding : Bytes} {missing start : Nat}
    {stack : List (Nat × Nat)} :
    appendRaw encoding 1 ⟨out, (missing + 2, start) :: stack⟩ =
      .ok ⟨out ++ encoding, (missing + 1, start) :: stack⟩ := by
  simp [appendRaw, noteAppended, noteAppendedLoop, bind, Except.bind, pure,
    Except.pure]

/-- The last item closes the innermost list, which then counts as one item
of the list around it. -/
theorem appendRaw_last {out body encoding : Bytes}
    {stack : List (Nat × Nat)}
    (small : (body ++ encoding).length < sizeTRange) :
    appendRaw encoding 1 ⟨out ++ body, (1, out.length) :: stack⟩ =
      appendRaw (encodeList (body ++ encoding)) 1 ⟨out, stack⟩ := by
  rw [List.length_append] at small
  simp [appendRaw, noteAppended, noteAppendedLoop, closingPrefix_eq small,
    encodeList, bind, Except.bind]

end RLPStream

namespace Script

mutual

/-- A proof by induction over scripts, with a hypothesis for every element
of a list. -/
theorem induction {motive : Script → Prop}
    (data : ∀ content, motive (.data content))
    (counted : ∀ items, (∀ item ∈ items, motive item) →
      motive (.counted items))
    (encoded : ∀ items, (∀ item ∈ items, motive item) →
      motive (.encoded items)) :
    ∀ script, motive script
  | .data content => data content
  | .counted items => counted items (inductionAll data counted encoded items)
  | .encoded items => encoded items (inductionAll data counted encoded items)

theorem inductionAll {motive : Script → Prop}
    (data : ∀ content, motive (.data content))
    (counted : ∀ items, (∀ item ∈ items, motive item) →
      motive (.counted items))
    (encoded : ∀ items, (∀ item ∈ items, motive item) →
      motive (.encoded items)) :
    ∀ items : List Script, ∀ item ∈ items, motive item
  | [] => by simp
  | head :: tail => by
      intro item member
      rcases List.mem_cons.mp member with same | later
      · rw [same]
        exact induction data counted encoded head
      · exact inductionAll data counted encoded tail item later

end

/-- Writing the script appends its encoding as one item. -/
def Faithful (script : Script) : Prop :=
  script.item.encode.length < sizeTRange →
    ∀ stream : RLPStream,
      script.write stream = stream.appendRaw script.item.encode 1

variable {scripts : List Script} {stream : RLPStream}

theorem head_small {script : Script}
    (small : (encodeAll (itemAll (script :: scripts))).length < sizeTRange) :
    script.item.encode.length < sizeTRange ∧
      (encodeAll (itemAll scripts)).length < sizeTRange := by
  simp [itemAll, encodeAll] at small
  omega

/-- Items written while more are missing leave the list open. -/
theorem writeAll_open (out : Bytes) (missing start : Nat)
    (stack : List (Nat × Nat))
    (faithful : ∀ script ∈ scripts, script.Faithful)
    (small : (encodeAll (itemAll scripts)).length < sizeTRange) :
    writeAll scripts
        ⟨out, (scripts.length + missing + 1, start) :: stack⟩ =
      .ok ⟨out ++ encodeAll (itemAll scripts),
        (missing + 1, start) :: stack⟩ := by
  induction scripts generalizing out with
  | nil => simp [writeAll, itemAll, encodeAll]
  | cons script scripts induction =>
      obtain ⟨headSmall, tailSmall⟩ := head_small small
      have count : (script :: scripts).length + missing + 1 =
          (scripts.length + missing) + 2 := by
        simp
        omega
      have head := faithful script (by simp) headSmall
        ⟨out, (scripts.length + missing + 2, start) :: stack⟩
      have others : ∀ other ∈ scripts, other.Faithful :=
        fun other member => faithful other (by simp [member])
      rw [RLPStream.appendRaw_open] at head
      simp only [writeAll, count, head, bind, Except.bind,
        induction _ others tailSmall]
      simp [itemAll, encodeAll]

/-- The last missing items close the list. -/
theorem writeAll_last (faithful : ∀ script ∈ scripts, script.Faithful)
    (nonempty : scripts ≠ []) {out body : Bytes}
    {stack : List (Nat × Nat)}
    (small : (body ++ encodeAll (itemAll scripts)).length < sizeTRange) :
    writeAll scripts ⟨out ++ body, (scripts.length, out.length) :: stack⟩ =
      RLPStream.appendRaw
        (encodeList (body ++ encodeAll (itemAll scripts))) 1
        ⟨out, stack⟩ := by
  obtain ⟨front, last, rfl⟩ :=
    (List.eq_nil_or_concat' scripts).resolve_left nonempty
  have whole : encodeAll (itemAll (front ++ [last])) =
      encodeAll (itemAll front) ++ last.item.encode := by
    simp [itemAll_append, encodeAll_append, itemAll, encodeAll]
  rw [whole] at small ⊢
  have lastSmall : last.item.encode.length < sizeTRange := by
    simp at small
    omega
  have frontSmall : (encodeAll (itemAll front)).length < sizeTRange := by
    simp at small
    omega
  have opened := writeAll_open (out ++ body) 0 out.length stack
    (fun script member => faithful script (by simp [member])) frontSmall
  have closed := faithful last (by simp) lastSmall
    ⟨out ++ (body ++ encodeAll (itemAll front)), (1, out.length) :: stack⟩
  rw [RLPStream.appendRaw_last (by simpa using small)] at closed
  have split : ∀ (front : List Script) (stream : RLPStream),
      writeAll (front ++ [last]) stream =
        (writeAll front stream).bind last.write := by
    intro front
    induction front with
    | nil =>
        intro stream
        simp only [writeAll, List.nil_append, bind, Except.bind]
        cases last.write stream <;> rfl
    | cons script front induction =>
        intro stream
        simp only [writeAll, List.cons_append, bind, Except.bind, induction]
        cases script.write stream <;> rfl
  rw [split, List.length_append, List.length_singleton]
  simp only [Nat.add_zero] at opened
  rw [opened]
  simpa [Except.bind] using closed

/-- On a stream without open lists the encodings just follow each other. -/
theorem writeAll_flat (faithful : ∀ script ∈ scripts, script.Faithful)
    {out : Bytes}
    (small : (encodeAll (itemAll scripts)).length < sizeTRange) :
    writeAll scripts ⟨out, []⟩ =
      .ok ⟨out ++ encodeAll (itemAll scripts), []⟩ := by
  induction scripts generalizing out with
  | nil => simp [writeAll, itemAll, encodeAll]
  | cons script scripts induction =>
      obtain ⟨headSmall, tailSmall⟩ := head_small small
      have head := faithful script (by simp) headSmall ⟨out, []⟩
      have others : ∀ other ∈ scripts, other.Faithful :=
        fun other member => faithful other (by simp [member])
      have flat : RLPStream.appendRaw script.item.encode 1 ⟨out, []⟩ =
          .ok ⟨out ++ script.item.encode, []⟩ := rfl
      rw [flat] at head
      simp only [writeAll, head, bind, Except.bind,
        induction others tailSmall]
      simp [itemAll, encodeAll]

theorem faithful (script : Script) : script.Faithful := by
  induction script using Script.induction with
  | data content =>
      intro small stream
      have inner : content.length < sizeTRange :=
        Nat.lt_of_le_of_lt (length_le_encodeData content) small
      simpa [write, item, encode] using RLPStream.append_eq inner
  | counted items induction =>
      intro small stream
      have inner : (encodeAll (itemAll items)).length < sizeTRange :=
        Nat.lt_trans (length_lt_encodeList _) small
      cases items with
      | nil =>
          have closed : stream.appendList 0 =
              stream.appendRaw (encodeList []) 1 :=
            RLPStream.appendListPayload_eq inner
          simp only [write, List.length_nil, closed, item, itemAll, encode,
            encodeAll, bind, Except.bind]
          cases stream.appendRaw (encodeList []) 1 <;> rfl
      | cons head tail =>
          have opened : stream.appendList (head :: tail).length =
              .ok ⟨stream.out ++ [], ((head :: tail).length,
                stream.out.length) :: stream.listStack⟩ := by
            simp [RLPStream.appendList]
          simp only [write, opened, bind, Except.bind]
          rw [writeAll_last induction (by simp) (by simpa using inner)]
          simp [item, encode]
  | encoded items induction =>
      intro small stream
      have inner : (encodeAll (itemAll items)).length < sizeTRange :=
        Nat.lt_trans (length_lt_encodeList _) small
      have written : writeAll items {} =
          .ok ⟨[] ++ encodeAll (itemAll items), []⟩ :=
        writeAll_flat induction inner
      simp only [write, written, bind, Except.bind, RLPStream.result,
        List.isEmpty_nil, if_true, List.nil_append]
      rw [RLPStream.appendListPayload_eq inner]
      rfl

end Script

end Aecmio
