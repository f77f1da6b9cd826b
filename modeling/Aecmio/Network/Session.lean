import Aecmio.Network.FrameStream
import Aecmio.Rlp.Raising

/-!
# The reading side of a session

`doRead` reads a frame header and then the frame it announces, checks that
the frame is a packet, and hands it to `readPacket`.  What throws inside a
callback and is not caught there leaves the loop of the network thread.
-/

namespace Aecmio

open Item RLP

/-- The severities of the log lines that print a packet. -/
inductive Verbosity where
  | debug
  | trace
deriving DecidableEq

/-- What `interpret` of the session or of a capability does with a packet,
and whether the session is dropped in the course of it. -/
inductive Reaction where
  | returned (ok dropped : Bool)
  | threw
deriving DecidableEq

/-- How a callback of `doRead` ends: with another read, or without. -/
inductive Ending where
  | awaiting
  | handed (capId packetType : Nat) (item : Bytes)
  | dropped
  | escaped (error : RLPError)
deriving DecidableEq

namespace RLP

/-- `streamOut` with so many levels left; of the text only what may throw
while it is made is kept. -/
def streamOut : Nat → Bytes → Except RLPError Unit
  | 0, _ => .ok ()
  | levels + 1, view =>
      if isNull view then .ok ()
      else do
        if ← isInt view then
          let _ ← toInt .bigint view .laissezFaire
        else if isData view then
          let _ ← toString view
        else if isList view then
          let parts ← iterate view
          parts.forM (streamOut levels)

/-- `operator<<`, with depths from 0 to 64. -/
def print (view : Bytes) : Except RLPError Unit := streamOut 65 view

end RLP

def checkPacket (msg : Bytes) : Except RLPError Bool :=
  match msg with
  | [] => .error .outOfBounds
  | first :: _ => do
      if 0x7f < first.toNat ∨ msg.length < 2 then return false
      let view ← RLP.construct (RLP.croppedFrom msg 1) .veryStrict
      if (← RLP.actualSize view) + 1 ≠ msg.length then return false
      return true

/-- Whether the packet was understood, and whether the session was dropped. -/
def readPacket (records : Verbosity → Bool) (reaction : Reaction)
    (item : Bytes) : Except RLPError (Bool × Bool) := do
  if records .trace then RLP.print item
  match reaction with
  | .returned ok dropped => return (ok, dropped)
  | .threw => do
      if records .debug then RLP.print item
      -- disconnect(BadProtocol)
      return (true, true)

/-- What the callback does with an authentic frame. -/
def handleFrame (records : Verbosity → Bool) (reaction : Reaction)
    (protocolId : Nat) (frame : Bytes) : Except RLPError (Ending × Bool) := do
  if ← checkPacket frame then
    let packetType ← RLP.toInt .uint32
      (← RLP.construct (RLP.cropped frame 0 1) .veryStrict)
    let item ← RLP.construct (RLP.croppedFrom frame 1) .veryStrict
    let (ok, dropped) ← readPacket records reaction item
    if !ok && records .debug then RLP.print item
    return (.handed protocolId packetType item, dropped)
  -- disconnect(BadProtocol)
  return (.dropped, true)

/-- The state of a session that `doRead` works on; `header` is there while
the frame that it announces is being read. -/
structure Session where
  io : RLPXFrameCoder
  header : Option RLPXFrameInfo := none
  dropped : Bool := false

namespace Session

variable [Hashing] [SessionCrypto]

def onHeader (session : Session) (data : Bytes) : Ending × Session :=
  match session.io.authAndDecryptHeader data with
  | (none, io) => (.dropped, { session with io, dropped := true })
  | (some header, io) =>
      match RLPXFrameInfo.ofHeader header with
      | .ok info => (.awaiting, { session with io, header := some info })
      | .error error =>
          if error.isException then
            (.dropped, { session with io, dropped := true })
          else (.escaped error, { session with io })

def onFrame (records : Verbosity → Bool) (reaction : Reaction)
    (session : Session) (info : RLPXFrameInfo) (data : Bytes) :
    Ending × Session :=
  match session.io.authAndDecryptFrame data with
  | (none, io) => (.dropped, { session with io, dropped := true })
  | (some text, io) =>
      match handleFrame records reaction info.protocolId
          (text.take info.length) with
      | .ok (ending, dropped) => (ending, { io, dropped })
      | .error error => (.escaped error, { session with io })

end Session

/-! ## The check of a packet -/

/-- A type byte and one item with a valid length prefix that takes exactly
the rest. -/
def IsPacket (frame : Bytes) : Prop :=
  ∃ first item, frame = first :: item ∧ first.toNat ≤ 0x7f ∧ item ≠ [] ∧
    RLP.actualSize item = .ok item.length

/-- The check returns, and says what it should. -/
def Checked (frame : Bytes) : Prop :=
  ∃ verdict, checkPacket frame = .ok verdict ∧
    (verdict = true ↔ IsPacket frame)

theorem construct_veryStrict_iff {view result : Bytes} :
    construct view .veryStrict = .ok result ↔
      actualSize view = .ok view.length ∧ result = view := by
  rw [construct_veryStrict_eq]
  constructor
  · intro constructed
    obtain ⟨total, size, accepted⟩ := exists_of_bind_ok constructed
    split_ifs at accepted
    cases accepted
    have exact_ : total = view.length := by omega
    rw [exact_] at size
    exact ⟨size, rfl⟩
  · rintro ⟨size, rfl⟩
    simp [size, bind, Except.bind]

variable {first : UInt8} {item : Bytes}

theorem croppedFrom_one : croppedFrom (first :: item) 1 = item := by
  rw [croppedFrom_eq (by simp)]
  rfl

theorem checkPacket_refused
    (refused : 0x7f < first.toNat ∨ item = []) :
    checkPacket (first :: item) = .ok false := by
  have condition : 0x7f < first.toNat ∨ (first :: item).length < 2 := by
    rcases refused with high | rfl
    · exact .inl high
    · exact .inr (by simp)
  simp only [checkPacket]
  rw [if_pos condition]
  rfl

theorem checkPacket_passed (low : first.toNat ≤ 0x7f) (some_ : item ≠ [])
    (size : actualSize item = .ok item.length) :
    checkPacket (first :: item) = .ok true := by
  have condition : ¬ (0x7f < first.toNat ∨ (first :: item).length < 2) := by
    have positive := List.length_pos_iff.mpr some_
    simp only [List.length_cons]
    omega
  have constructed : construct item .veryStrict = .ok item :=
    construct_veryStrict_iff.mpr ⟨size, rfl⟩
  simp only [checkPacket]
  rw [if_neg condition]
  simp [croppedFrom_one, constructed, size, bind, Except.bind, pure,
    Except.pure]

theorem checkPacket_thrown (low : first.toNat ≤ 0x7f) (some_ : item ≠ [])
    (size : actualSize item ≠ .ok item.length) :
    ∃ error, checkPacket (first :: item) = .error error := by
  have condition : ¬ (0x7f < first.toNat ∨ (first :: item).length < 2) := by
    have positive := List.length_pos_iff.mpr some_
    simp only [List.length_cons]
    omega
  cases constructed : construct item .veryStrict with
  | ok view => exact absurd (construct_veryStrict_iff.mp constructed).1 size
  | error error =>
      refine ⟨error, ?_⟩
      simp only [checkPacket]
      rw [if_neg condition]
      simp [croppedFrom_one, constructed, bind, Except.bind]

/-- A frame that the check neither reads beyond nor throws at. -/
def Checkable (frame : Bytes) : Prop :=
  ∃ first item, frame = first :: item ∧
    (0x7f < first.toNat ∨ item = [] ∨ actualSize item = .ok item.length)

theorem checked_iff (frame : Bytes) : Checked frame ↔ Checkable frame := by
  cases frame with
  | nil =>
      constructor
      · rintro ⟨verdict, returned, -⟩
        cases returned
      · rintro ⟨first, item, split, -⟩
        cases split
  | cons first item =>
      by_cases refused : 0x7f < first.toNat ∨ item = []
      · have returned := checkPacket_refused refused
        constructor
        · intro _
          rcases refused with high | none_
          · exact ⟨first, item, rfl, .inl high⟩
          · exact ⟨first, item, rfl, .inr (.inl none_)⟩
        · intro _
          refine ⟨false, returned, ?_⟩
          constructor
          · intro impossible
            cases impossible
          · rintro ⟨_, _, split, low, some_, -⟩
            cases split
            rcases refused with high | none_
            · omega
            · exact absurd none_ some_
      · push Not at refused
        obtain ⟨low, some_⟩ := refused
        by_cases size : actualSize item = .ok item.length
        · constructor
          · intro _
            exact ⟨first, item, rfl, .inr (.inr size)⟩
          · intro _
            refine ⟨true, checkPacket_passed low some_ size, ?_⟩
            constructor
            · intro _
              exact ⟨first, item, rfl, low, some_, size⟩
            · intro _
              rfl
        · obtain ⟨error, thrown⟩ := checkPacket_thrown low some_ size
          constructor
          · rintro ⟨verdict, returned, -⟩
            rw [thrown] at returned
            cases returned
          · rintro ⟨_, _, split, high | none_ | fits⟩
            · cases split
              omega
            · cases split
              exact absurd none_ some_
            · cases split
              exact absurd fits size

/-! ## The callback for a frame -/

/-- Whether a log line prints the packet. -/
def Printed (records : Verbosity → Bool) (reaction : Reaction) : Prop :=
  records .trace = true ∨ records .debug = true ∧
    (reaction = .threw ∨ ∃ dropped, reaction = .returned false dropped)

/-- What follows the check of a packet, and how it ends. -/
def deliver (records : Verbosity → Bool) (reaction : Reaction)
    (protocolId packetType : Nat) (item : Bytes) :
    Except RLPError (Ending × Bool) := do
  let (ok, dropped) ← readPacket records reaction item
  if !ok && records .debug then RLP.print item
  return (.handed protocolId packetType item, dropped)

/-- Printing is all that can throw there. -/
theorem deliver_iff (records : Verbosity → Bool) (reaction : Reaction)
    (protocolId packetType : Nat) (item : Bytes) :
    (∃ result, deliver records reaction protocolId packetType item =
      .ok result) ↔
      (Printed records reaction → RLP.print item = .ok ()) := by
  cases printed : RLP.print item with
  | ok unit =>
      cases reaction with
      | returned ok dropped =>
          simp [deliver, readPacket, printed, bind, Except.bind, pure,
            Except.pure]
      | threw =>
          simp [deliver, readPacket, printed, bind, Except.bind, pure,
            Except.pure]
  | error error =>
      cases traced : records .trace with
      | true =>
          simp [deliver, readPacket, Printed, traced, printed, bind,
            Except.bind]
      | false =>
          cases debugged : records .debug with
          | false =>
              cases reaction with
              | returned ok dropped =>
                  simp [deliver, readPacket, Printed, traced, debugged,
                    bind, Except.bind, pure, Except.pure]
              | threw =>
                  simp [deliver, readPacket, Printed, traced, debugged,
                    bind, Except.bind, pure, Except.pure]
          | true =>
              cases reaction with
              | threw =>
                  simp [deliver, readPacket, Printed, traced, debugged,
                    printed, bind, Except.bind, pure, Except.pure]
              | returned ok dropped =>
                  cases ok with
                  | true =>
                      simp [deliver, readPacket, Printed, traced, debugged,
                        bind, Except.bind, pure, Except.pure]
                  | false =>
                      simp [deliver, readPacket, Printed, traced, debugged,
                        printed, bind, Except.bind, pure, Except.pure]

/-- The type byte as a number: zero is none in RLP. -/
theorem toInt_typeByte (low : first.toNat ≤ 0x7f) :
    toInt .uint32 [first] =
      if first = 0 then .error .badCast else .ok first.toNat := by
  have direct : first.toNat < 128 := by omega
  have good : requireGood [first] = .ok () := by
    simp only [requireGood]
    rw [if_pos (by simp; omega)]
  have single : encodeData [first] = [first] := by
    simp [encodeData, standsForItself, direct]
  have limit : [first].length < readLimit := by
    rw [readLimit_eq, List.length_singleton]
    decide
  have content := payload_encodeData limit
  rw [single] at content
  have notList : ¬ 192 ≤ first.toNat := by omega
  by_cases zero : first = 0
  · subst zero
    rfl
  · rw [if_neg zero]
    simp [toInt, good, zero, isInt, direct, isList, isNull, content, notList,
      Strictness.strict, fromBigEndianAs, IntType.maxSize, IntType.reduce,
      bind, Except.bind, pure, Except.pure]

theorem construct_typeByte (low : first.toNat ≤ 0x7f) :
    construct (cropped (first :: item) 0 1) .veryStrict = .ok [first] := by
  have front : cropped (first :: item) 0 1 = [first] := by
    simp [cropped, VectorRef.cropped, VectorRef.whole, VectorRef.contents,
      sizeTRange_eq]
  rw [front, construct_veryStrict_iff]
  have direct : first.toNat < 128 := by omega
  simp [actualSize, isNull, isSingleByte, direct, pure, Except.pure]

theorem handleFrame_packet (records : Verbosity → Bool) (reaction : Reaction)
    (protocolId : Nat) (low : first.toNat ≤ 0x7f) (some_ : item ≠ [])
    (size : actualSize item = .ok item.length) :
    handleFrame records reaction protocolId (first :: item) =
      if first = 0 then .error .badCast
      else deliver records reaction protocolId first.toNat item := by
  have constructed : construct item .veryStrict = .ok item :=
    construct_veryStrict_iff.mpr ⟨size, rfl⟩
  simp only [handleFrame, checkPacket_passed low some_ size,
    construct_typeByte low, toInt_typeByte low, croppedFrom_one, constructed,
    bind, Except.bind, if_true]
  by_cases zero : first = 0
  · rw [if_pos zero, if_pos zero]
  · rw [if_neg zero, if_neg zero]
    rfl

/-- A frame that the callback can cope with. -/
def Tolerable (records : Verbosity → Bool) (reaction : Reaction)
    (frame : Bytes) : Prop :=
  ∃ first item, frame = first :: item ∧
    (0x7f < first.toNat ∨ item = [] ∨
      actualSize item = .ok item.length ∧ first ≠ 0 ∧
        (Printed records reaction → RLP.print item = .ok ()))

theorem handled_iff (records : Verbosity → Bool) (reaction : Reaction)
    (protocolId : Nat) (frame : Bytes) :
    (Checked frame ∧ ∃ result,
        handleFrame records reaction protocolId frame = .ok result) ↔
      Tolerable records reaction frame := by
  rw [checked_iff]
  cases frame with
  | nil =>
      constructor
      · rintro ⟨⟨first, item, split, -⟩, -⟩
        cases split
      · rintro ⟨first, item, split, -⟩
        cases split
  | cons first item =>
      by_cases refused : 0x7f < first.toNat ∨ item = []
      · have ended : handleFrame records reaction protocolId (first :: item) =
            .ok (.dropped, true) := by
          simp only [handleFrame, checkPacket_refused refused, bind,
            Except.bind]
          rfl
        constructor
        · intro _
          rcases refused with high | none_
          · exact ⟨first, item, rfl, .inl high⟩
          · exact ⟨first, item, rfl, .inr (.inl none_)⟩
        · intro _
          refine ⟨⟨first, item, rfl, ?_⟩, _, ended⟩
          rcases refused with high | none_
          · exact .inl high
          · exact .inr (.inl none_)
      · push Not at refused
        obtain ⟨low, some_⟩ := refused
        constructor
        · rintro ⟨⟨_, _, split, checkable⟩, result, ended⟩
          cases split
          rcases checkable with high | none_ | size
          · omega
          · exact absurd none_ some_
          rw [handleFrame_packet records reaction protocolId low some_ size]
            at ended
          split_ifs at ended with zero
          refine ⟨first, item, rfl, .inr (.inr ⟨size, zero, ?_⟩)⟩
          rw [← deliver_iff records reaction protocolId first.toNat item]
          exact ⟨result, ended⟩
        · rintro ⟨_, _, split, high | none_ | ⟨size, nonzero, prints⟩⟩
          · cases split
            omega
          · cases split
            exact absurd none_ some_
          cases split
          obtain ⟨result, ended⟩ :=
            (deliver_iff records reaction protocolId first.toNat item).mpr
              prints
          refine ⟨⟨first, item, rfl, .inr (.inr size)⟩, result, ?_⟩
          rw [handleFrame_packet records reaction protocolId low some_ size,
            if_neg nonzero]
          exact ended

/-! ## The callback for a header -/

/-- Whatever a header holds, decoding it throws at most. -/
theorem ofHeader_raises {header : Bytes} (short : header.length < 2 ^ 32) :
    Raises (RLPXFrameInfo.ofHeader header) := by
  have bounded : header.length < sizeTRange - 1 := by
    rw [sizeTRange_eq]
    omega
  have number : ∀ (type : IntType) (view : Bytes) (position : Nat)
      (next : Nat → Except RLPError RLPXFrameInfo),
      view.length ≤ header.length → position < 3 →
      (∀ value, Raises (next value)) →
      Raises (do
        let value ← toInt type (← at_ view position)
        next value) := by
    intro type view position next inside early others
    apply Raises.bind (at_raises (by omega) (by rw [sizeTRange_eq]; omega))
    intro part _
    apply Raises.bind (toInt_raises type part _)
    intro value _
    exact others value
  unfold RLPXFrameInfo.ofHeader
  apply Raises.bind (construct_throwIfTooSmall_raises _)
  intro view constructed
  have inside : view.length ≤ header.length := by
    rw [construct_throwIfTooSmall_eq] at constructed
    obtain ⟨total, -, kept⟩ := exists_of_bind_ok constructed
    split_ifs at kept
    cases kept
    by_cases long : 3 ≤ header.length
    · rw [croppedFrom_eq long, List.length_drop]
      omega
    · simp [croppedFrom, VectorRef.croppedFrom, VectorRef.whole, long,
        VectorRef.contents, VectorRef.null]
  have counts := itemCount_raises (show view.length < sizeTRange - 1 by omega)
  apply number _ _ _ _ inside (by decide)
  intro protocolId
  apply Raises.bind counts
  intro count _
  have last : ∀ make : Nat → RLPXFrameInfo, Raises (do
      let count ← RLP.itemCount view
      let totalLength ← if count = 3 then do
          RLP.toInt .uint32 (← RLP.at_ view 2)
        else pure 0
      return make totalLength) := by
    intro make
    apply Raises.bind counts
    intro count _
    apply Raises.ite
    · exact number _ _ _ _ inside (by decide) fun _ => .pure _
    · exact .bind (.pure _) fun _ _ => .pure _
  apply Raises.ite
  · exact number _ _ _ _ inside (by decide) fun _ => last _
  · exact .bind (.pure _) fun _ _ => last _

def Ending.escapes : Ending → Bool
  | .escaped _ => true
  | _ => false

section

variable [Hashing] [SessionCrypto]

theorem onHeader_ends (session : Session) {data : Bytes}
    (short : data.length < 2 ^ 31) :
    (session.onHeader data).1.escapes = false := by
  unfold Session.onHeader
  split
  · rfl
  · rename_i header io decrypted
    split
    · rfl
    · rename_i error failed
      have length : header.length < 2 ^ 32 := by
        simp only [RLPXFrameCoder.authAndDecryptHeader] at decrypted
        split at decrypted
        · cases decrypted
        · cases decrypted
          simp [RLPXFrameCoder.decrypt]
          omega
      rw [if_pos (ofHeader_raises length error failed)]
      rfl

/-- A callback that returns has handed the packet over or dropped the
session. -/
theorem handleFrame_ending {records : Verbosity → Bool} {reaction : Reaction}
    {protocolId : Nat} {frame : Bytes} {result : Ending × Bool}
    (ended : handleFrame records reaction protocolId frame = .ok result) :
    result.1.escapes = false := by
  obtain ⟨passed, -, rest⟩ := exists_of_bind_ok ended
  cases passed with
  | false =>
      cases Except.ok.inj rest
      rfl
  | true =>
      obtain ⟨typeByte, -, rest⟩ := exists_of_bind_ok rest
      obtain ⟨packetType, -, rest⟩ := exists_of_bind_ok rest
      obtain ⟨item, -, rest⟩ := exists_of_bind_ok rest
      obtain ⟨⟨understood, dropped⟩, -, rest⟩ := exists_of_bind_ok rest
      dsimp only at rest
      split at rest
      · obtain ⟨_, -, rest⟩ := exists_of_bind_ok rest
        cases Except.ok.inj rest
        rfl
      · cases Except.ok.inj rest
        rfl

theorem onFrame_escapes {session : Session} {info : RLPXFrameInfo}
    {data text : Bytes} (records : Verbosity → Bool) (reaction : Reaction)
    (authentic : (session.io.authAndDecryptFrame data).1 = some text) :
    (session.onFrame records reaction info data).1.escapes = false ↔
      ∃ result, handleFrame records reaction info.protocolId
        (text.take info.length) = .ok result := by
  unfold Session.onFrame
  split
  · rename_i io refused
    rw [refused] at authentic
    cases authentic
  · rename_i read io decrypted
    rw [decrypted] at authentic
    cases authentic
    cases ended : handleFrame records reaction info.protocolId
        (text.take info.length) with
    | error error => simp [Ending.escapes]
    | ok result => simp [handleFrame_ending ended]

/-- The callback for a header always ends in another read or in a drop.  The
check of a frame reads inside it, returns and is right, and the callback for
the frame ends in `readPacket` or in a drop, exactly for the frames that are
tolerable. -/
theorem readPath_total_iff :
    (∀ (session : Session) (data : Bytes), data.length = 32 →
      (session.onHeader data).1.escapes = false) ∧
    ∀ (records : Verbosity → Bool) (reaction : Reaction) (session : Session)
        (info : RLPXFrameInfo) (data : Bytes),
      ((session.io.authAndDecryptFrame data).1 = none →
        (session.onFrame records reaction info data).1 = .dropped) ∧
      ∀ text, (session.io.authAndDecryptFrame data).1 = some text →
        ((Checked (text.take info.length) ∧
            (session.onFrame records reaction info data).1.escapes = false) ↔
          Tolerable records reaction (text.take info.length)) := by
  refine ⟨?_, ?_⟩
  · intro session data length
    exact onHeader_ends session (by omega)
  · intro records reaction session info data
    constructor
    · intro refused
      unfold Session.onFrame
      split
      · rfl
      · rename_i text io decrypted
        rw [decrypted] at refused
        cases refused
    · intro text authentic
      rw [onFrame_escapes records reaction authentic]
      exact handled_iff records reaction info.protocolId _

end

attribute [local instance] streamSampleHashing streamSampleCrypto

/-- The coder of a session in which nothing has been sent. -/
def sessionSampleCoder : RLPXFrameCoder where
  frameEnc := { key := hashOfNat 1 }
  frameDec := { key := hashOfNat 1 }
  macEnc := hashOfNat 2
  egressMac := {}
  ingressMac := {}

theorem readPath_total_iff_sample :
    ((⟨sessionSampleCoder, none, false⟩ : Session).onHeader
      (List.replicate 32 0)).1.escapes = false ∧
    ∃ data text, (sessionSampleCoder.authAndDecryptFrame data).1 = some text ∧
      ((Checked (text.take 2) ∧ ((⟨sessionSampleCoder, none, false⟩ :
          Session).onFrame (fun _ => true) .threw
            ⟨2, 14, [], 0, true, 0, 0⟩ data).1.escapes = false) ↔
        Tolerable (fun _ => true) .threw (text.take 2)) := by
  obtain ⟨changed, read, -, -⟩ :=
    @RLPXFrameCoder.authAndDecryptFrame_emit _ _ sessionSampleCoder
      (padded [2, 0xc0])
  have authentic := congrArg Prod.fst read
  refine ⟨readPath_total_iff.1 _ _ (by decide), _, _, authentic, ?_⟩
  exact (readPath_total_iff.2 (fun _ => true) .threw
    ⟨sessionSampleCoder, none, false⟩ ⟨2, 14, [], 0, true, 0, 0⟩ _).2 _
      authentic

/-- A ping with a byte too many: the check throws instead of refusing it, and
nothing catches what it throws. -/
theorem trailing_byte_escapes :
    (checkPacket [2, 0xc0, 0xc0] = .error .oversizeRLP ∧
      handleFrame (fun _ => false) (.returned true false) 0
        [2, 0xc0, 0xc0] = .error .oversizeRLP) ∧
    ¬ ∀ (records : Verbosity → Bool) (reaction : Reaction) (protocolId : Nat)
        (frame : Bytes), Checked frame ∧ ∃ result,
          handleFrame records reaction protocolId frame = .ok result := by
  have thrown : checkPacket [2, 0xc0, 0xc0] = .error .oversizeRLP := by
    decide +kernel
  refine ⟨⟨thrown, ?_⟩, ?_⟩
  · simp only [handleFrame, thrown]
    rfl
  · intro claimed
    obtain ⟨verdict, returned, -⟩ :=
      (claimed (fun _ => false) (.returned true false) 0 [2, 0xc0, 0xc0]).1
    rw [thrown] at returned
    cases returned

end Aecmio
