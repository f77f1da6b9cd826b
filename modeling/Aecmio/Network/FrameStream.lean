import Aecmio.Network.FrameCoder

/-!
# Frames between two ends

The writing half of one end and the reading half of the other are the same
machine, which `Direction` describes; from equal states they stay in
lockstep, whatever is written in whatever order.
-/

namespace Aecmio

open Item RLP

/-! ## One direction -/

/-- A key stream and a MAC. -/
structure Direction where
  frame : CtrMode
  macEnc : H256
  mac : Keccak256
deriving DecidableEq

def RLPXFrameCoder.egress (coder : RLPXFrameCoder) : Direction :=
  ⟨coder.frameEnc, coder.macEnc, coder.egressMac⟩

def RLPXFrameCoder.ingress (coder : RLPXFrameCoder) : Direction :=
  ⟨coder.frameDec, coder.macEnc, coder.ingressMac⟩

/-- The payload with the bytes that fill up its last block. -/
def padded (payload : Bytes) : Bytes :=
  payload ++ List.replicate ((16 - payload.length % 16) % 16) 0

theorem length_padded (payload : Bytes) : (padded payload).length =
    payload.length + (16 - payload.length % 16) % 16 := by
  simp [padded]

section

variable [SessionCrypto] {mode : CtrMode} {text : Bytes}

@[simp] theorem length_processData :
    (mode.processData text).1.length = text.length := by
  simp [CtrMode.processData]

/-- What the key stream encrypts it decrypts. -/
theorem processData_twice :
    mode.processData (mode.processData text).1 =
      (text, (mode.processData text).2) := by
  have restored : ((text.mapIdx fun offset byte => byte ^^^
        keyStream mode.key (mode.position + offset)).mapIdx
      fun offset byte => byte ^^^
        keyStream mode.key (mode.position + offset)) = text := by
    apply List.ext_getElem
    · simp
    · intro position _ _
      simp [UInt8.xor_assoc]
  simp [CtrMode.processData, restored]

theorem processData_append (front back : Bytes) :
    mode.processData (front ++ back) =
      ((mode.processData front).1 ++
          ((mode.processData front).2.processData back).1,
        ((mode.processData front).2.processData back).2) := by
  simp [CtrMode.processData, List.mapIdx_append, Nat.add_assoc,
    Nat.add_comm, Nat.add_left_comm]

end

section

variable [Hashing] [SessionCrypto]

@[simp] theorem length_digest (mac : Keccak256) : mac.digest.val.length = 16 :=
  mac.digest.property

namespace Direction

def emitHeader (direction : Direction) (header : Bytes) : Bytes × Direction :=
  let (cipher, frame) := direction.frame.processData header
  let mac := updateMAC direction.macEnc direction.mac cipher
  (cipher ++ mac.digest.val, { direction with frame, mac })

def emitPayload (direction : Direction) (payload : Bytes) :
    Bytes × Direction :=
  let (cipher, frame) := direction.frame.processData payload
  let mac := updateMAC direction.macEnc (direction.mac.update cipher)
  (cipher ++ mac.digest.val, { direction with frame, mac })

variable {direction : Direction} {header payload : Bytes}

@[simp] theorem length_emitHeader :
    (direction.emitHeader header).1.length = header.length + 16 := by
  simp [emitHeader]

@[simp] theorem length_emitPayload :
    (direction.emitPayload payload).1.length = payload.length + 16 := by
  simp [emitPayload]

end Direction

namespace RLPXFrameCoder

variable {coder : RLPXFrameCoder} {header payload : Bytes}

/-- The reader takes the header out of what the writer made of it, and the
two directions move on alike. -/
theorem authAndDecryptHeader_emit (block : header.length = 16) :
    ∃ changed, coder.authAndDecryptHeader
          (coder.ingress.emitHeader header).1 =
        (some (header ++ (coder.ingress.emitHeader header).2.mac.digest.val),
          changed) ∧
      changed.ingress = (coder.ingress.emitHeader header).2 ∧
      changed.egress = coder.egress := by
  have cipherBlock : (coder.frameDec.processData header).1.length = 16 := by
    simp [block]
  have front : ∀ rest : Bytes,
      ((coder.frameDec.processData header).1 ++ rest).take 16 =
        (coder.frameDec.processData header).1 := by
    intro rest
    exact List.take_left' cipherBlock
  have back : ∀ rest : Bytes,
      ((coder.frameDec.processData header).1 ++ rest).drop 16 = rest := by
    intro rest
    exact List.drop_left' cipherBlock
  simp [authAndDecryptHeader, updateIngressMACWithHeader, ingress,
    Direction.emitHeader, front, back, hashAt_val, ingressDigest, decrypt,
    processData_twice, egress]

/-- A frame whose MAC is right is decrypted. -/
theorem authAndDecryptFrame_eq {cipher mac : Bytes} (length : mac.length = 16)
    (authentic : (coder.updateIngressMACWithFrame cipher).ingressDigest =
      hashAt 16 mac) :
    coder.authAndDecryptFrame (cipher ++ mac) =
      (some (((coder.updateIngressMACWithFrame cipher).decrypt cipher).1 ++
          mac),
        ((coder.updateIngressMACWithFrame cipher).decrypt cipher).2) := by
  have size : (cipher ++ mac).length - 16 = cipher.length := by
    simp [length]
  have front : (cipher ++ mac).take cipher.length = cipher := by simp
  have back : (cipher ++ mac).drop cipher.length = mac := by simp
  unfold authAndDecryptFrame
  simp only [size, front, back, authentic, ne_eq, not_true_eq_false, if_false]

theorem authAndDecryptFrame_emit :
    ∃ changed, coder.authAndDecryptFrame
          (coder.ingress.emitPayload payload).1 =
        (some (payload ++
          (coder.ingress.emitPayload payload).2.mac.digest.val), changed) ∧
      changed.ingress = (coder.ingress.emitPayload payload).2 ∧
      changed.egress = coder.egress := by
  have read := @authAndDecryptFrame_eq _ _ coder
    (coder.frameDec.processData payload).1
    (updateMAC coder.macEnc (coder.ingressMac.update
      (coder.frameDec.processData payload).1)).digest.val
    (length_digest _) (hashAt_val _).symm
  simp only [ingress, Direction.emitPayload]
  rw [read]
  simp [updateIngressMACWithFrame, decrypt, processData_twice, egress]

theorem take_takeD (content : Bytes) {short long : Nat} (le : short ≤ long) :
    (content.takeD long 0).take short = content.takeD short 0 := by
  induction short generalizing content long with
  | zero => simp
  | succ short induction =>
      obtain ⟨longer, rfl⟩ : ∃ longer, long = longer + 1 :=
        ⟨long - 1, by omega⟩
      simp only [List.takeD_succ, List.take_succ_cons]
      rw [induction content.tail (by omega)]

/-- The whole frame is what the direction makes of the header, filled up to a
block, and of the padded payload. -/
theorem writeFrameWith_eq {stream : RLPStream}
    (written : stream.result = .ok header) :
    ∃ changed, coder.writeFrameWith stream payload =
        .ok ((coder.egress.emitHeader (header.takeD 16 0)).1 ++
          ((coder.egress.emitHeader (header.takeD 16 0)).2.emitPayload
            (padded payload)).1, changed) ∧
      changed.egress = ((coder.egress.emitHeader
        (header.takeD 16 0)).2.emitPayload (padded payload)).2 ∧
      changed.ingress = coder.ingress := by
  have block := take_takeD header (show 16 ≤ 32 by decide)
  have length : (header.takeD 16 0).length = 16 := List.takeD_length 16 _ _
  generalize header.takeD 16 0 = filled at block length ⊢
  have whole : (coder.frameEnc.processData filled).1.take 16 =
      (coder.frameEnc.processData filled).1 := by
    apply List.take_of_length_le
    rw [length_processData, length]
  let moved := ((coder.egress.emitHeader filled).2.emitPayload
    (padded payload)).2
  refine ⟨{ coder with frameEnc := moved.frame, egressMac := moved.mac }, ?_,
    rfl, rfl⟩
  simp only [writeFrameWith, written, bind, Except.bind, pure, Except.pure,
    block, encrypt, updateEgressMACWithHeader, updateEgressMACWithFrame,
    whole, egressDigest, egress, Direction.emitHeader, Direction.emitPayload,
    padded, processData_append, moved, List.append_assoc]

end RLPXFrameCoder

end

/-! ## Frames -/

/-- The frames that can be written: a packet of its own, and the three kinds
of frames with a protocol type. -/
inductive Frame where
  | packet (payload : Bytes)
  | single (protocolType : UInt16) (payload : Bytes)
  | continuation (protocolType seqId : UInt16) (payload : Bytes)
  | first (protocolType seqId : UInt16) (totalSize : UInt32) (payload : Bytes)
deriving DecidableEq

/-- What a reader learns of a frame. -/
structure Recovered where
  length : Nat
  protocolId : Nat
  multiFrame : Bool
  sequenceId : Nat
  totalLength : Nat
  payload : Bytes
deriving DecidableEq

namespace Frame

def payload : Frame → Bytes
  | packet payload => payload
  | single _ payload => payload
  | continuation _ _ payload => payload
  | first _ _ _ payload => payload

/-- The numbers in the header. -/
def fields : Frame → List Nat
  | packet _ => [0, 0]
  | single protocolType _ => [protocolType.toNat]
  | continuation protocolType seqId _ => [protocolType.toNat, seqId.toNat]
  | first protocolType seqId totalSize _ =>
      [protocolType.toNat, seqId.toNat, totalSize.toNat]

/-- What there is to be learned of a frame. -/
def recovered (frame : Frame) : Recovered where
  length := frame.payload.length
  protocolId := frame.fields.getD 0 0
  multiFrame := 1 < frame.fields.length
  sequenceId := frame.fields.getD 1 0
  totalLength := frame.fields.getD 2 0
  payload := frame.payload

def write [Hashing] [SessionCrypto] (coder : RLPXFrameCoder) :
    Frame → Except RLPError (Bytes × RLPXFrameCoder)
  | packet payload => coder.writeSingleFramePacket payload
  | single protocolType payload => coder.writeFrame protocolType payload
  | continuation protocolType seqId payload =>
      coder.writeContinuationFrame protocolType seqId payload
  | first protocolType seqId totalSize payload =>
      coder.writeFirstFrame protocolType seqId totalSize payload

def parts (frame : Frame) : List Bytes :=
  frame.fields.map fun field => encodeData (RLPStream.intContent field)

def header (frame : Frame) : Bytes :=
  RLPXFrameCoder.frameSize frame.payload ++ encodeList frame.parts.flatten

variable (frame : Frame)

theorem fields_ne_nil : frame.fields ≠ [] := by
  cases frame <;> simp [fields]

theorem field_lt {field : Nat} (member : field ∈ frame.fields) :
    field < 256 ^ 4 := by
  have short : ∀ value : UInt16, value.toNat < 256 ^ 4 := by
    intro value
    have bound := value.toNat_lt
    omega
  cases frame with
  | packet payload =>
      simp [fields] at member
      omega
  | single protocolType payload =>
      simp only [fields, List.mem_singleton] at member
      rw [member]
      exact short _
  | continuation protocolType seqId payload =>
      simp only [fields, List.mem_cons, List.not_mem_nil, or_false] at member
      rcases member with rfl | rfl
      · exact short _
      · exact short _
  | first protocolType seqId totalSize payload =>
      simp only [fields, List.mem_cons, List.not_mem_nil, or_false] at member
      rcases member with rfl | rfl | rfl
      · exact short _
      · exact short _
      · exact totalSize.toNat_lt

/-- A number that fits into `size` bytes takes at most one byte more. -/
theorem length_encoded {value size : Nat} (fits : value < 256 ^ size)
    (small : size < 56) :
    (encodeData (RLPStream.intContent value)).length ≤ size + 1 := by
  have digits : bytesRequired value ≤ size :=
    (bytesRequired_le_iff value size).mpr fits
  have length : (RLPStream.intContent value).length ≤ size := by
    simpa [RLPStream.intContent] using digits
  unfold encodeData
  split
  · omega
  · simp only [List.length_append, lengthPrefix]
    rw [if_pos (by omega)]
    simp only [List.length_singleton]
    omega

theorem length_parts : frame.parts.flatten.length ≤ 11 := by
  have word : ∀ value : UInt16,
      (encodeData (RLPStream.intContent value.toNat)).length ≤ 3 :=
    fun value => length_encoded value.toNat_lt (by decide)
  have zero : (encodeData (RLPStream.intContent 0)).length ≤ 1 :=
    length_encoded (by decide) (by decide)
  cases frame with
  | packet payload =>
      simp only [parts, fields, List.map_cons, List.map_nil, List.flatten_cons,
        List.flatten_nil, List.length_append, List.length_nil]
      omega
  | single protocolType payload =>
      have one := word protocolType
      simp only [parts, fields, List.map_cons, List.map_nil, List.flatten_cons,
        List.flatten_nil, List.length_append, List.length_nil]
      omega
  | continuation protocolType seqId payload =>
      have one := word protocolType
      have two := word seqId
      simp only [parts, fields, List.map_cons, List.map_nil, List.flatten_cons,
        List.flatten_nil, List.length_append, List.length_nil]
      omega
  | first protocolType seqId totalSize payload =>
      have one := word protocolType
      have two := word seqId
      have three : (encodeData (RLPStream.intContent
          totalSize.toNat)).length ≤ 5 :=
        length_encoded totalSize.toNat_lt (by decide)
      simp only [parts, fields, List.map_cons, List.map_nil, List.flatten_cons,
        List.flatten_nil, List.length_append, List.length_nil]
      omega

theorem length_header : frame.header.length ≤ 16 := by
  have bound := frame.length_parts
  simp only [header, encodeList, lengthPrefix, List.length_append]
  rw [if_pos (by omega)]
  simp only [RLPXFrameCoder.frameSize, List.length_cons, List.length_nil]
  omega

theorem part_parts {part : Bytes} (member : part ∈ frame.parts) : Part part := by
  obtain ⟨field, listed, rfl⟩ := List.mem_map.mp member
  apply Part.data
  have digits : bytesRequired field ≤ 4 :=
    (bytesRequired_le_iff field 4).mpr (frame.field_lt listed)
  rw [readLimit_eq]
  simp only [RLPStream.intContent, length_toBigEndian]
  omega

theorem stream_eq :
    (do
      let header ← RLPStream.appendRaw (RLPXFrameCoder.frameSize frame.payload)
        1 {}
      let header ← header.appendList frame.fields.length
      frame.fields.foldlM (fun (stream : RLPStream) (field : Nat) =>
        stream.appendInt field) header) =
      .ok ⟨frame.header, []⟩ := by
  have nonempty : frame.parts ≠ [] := by
    simpa [parts] using frame.fields_ne_nil
  have small : frame.parts.flatten.length < sizeTRange := by
    have bound := frame.length_parts
    rw [sizeTRange_eq]
    omega
  have written : ∀ (fields : List Nat) (stream : RLPStream),
      (∀ field ∈ fields, field < 256 ^ 4) →
      fields.foldlM (fun (stream : RLPStream) (field : Nat) =>
          stream.appendInt field) stream =
        (fields.map fun field =>
          encodeData (RLPStream.intContent field)).foldlM
            (fun stream part => stream.appendRaw part 1) stream := by
    intro fields
    induction fields with
    | nil => intro stream _; rfl
    | cons field others induction =>
        intro stream bounded
        have digits : bytesRequired field ≤ 4 :=
          (bytesRequired_le_iff field 4).mpr (bounded field List.mem_cons_self)
        simp only [List.map_cons, List.foldlM_cons]
        rw [RLPStream.appendInt_eq stream (by omega)]
        apply bind_congr
        intro next
        exact induction next fun other member =>
          bounded other (List.mem_cons_of_mem _ member)
  have listed := RLPStream.appendList_parts nonempty small
    ⟨RLPXFrameCoder.frameSize frame.payload, []⟩
  have count : frame.parts.length = frame.fields.length := by simp [parts]
  rw [count] at listed
  have fields : ∀ stream : RLPStream,
      frame.fields.foldlM (fun (stream : RLPStream) (field : Nat) =>
          stream.appendInt field) stream =
        frame.parts.foldlM (fun stream part => stream.appendRaw part 1)
          stream :=
    fun stream => written _ stream fun _ member => frame.field_lt member
  simp only [fields]
  exact listed

theorem write_eq [Hashing] [SessionCrypto] (coder : RLPXFrameCoder) :
    frame.write coder =
      coder.writeFrameWith ⟨frame.header, []⟩ frame.payload := by
  have streamed := congrArg
    (fun stream => stream >>= fun header =>
      coder.writeFrameWith header frame.payload) frame.stream_eq
  cases frame with
  | packet payload => rfl
  | single protocolType payload =>
      simp only [fields, List.foldlM_cons, List.foldlM_nil, bind_pure,
        bind_assoc] at streamed
      exact streamed
  | continuation protocolType seqId payload =>
      simp only [fields, List.foldlM_cons, List.foldlM_nil, bind_pure,
        bind_assoc] at streamed
      exact streamed
  | first protocolType seqId totalSize payload =>
      simp only [fields, List.foldlM_cons, List.foldlM_nil, bind_pure,
        bind_assoc] at streamed
      exact streamed

/-! ### Reading a header -/

section

variable {parts : List Bytes}

/-- What follows a list does not matter when its items are read. -/
theorem payload_append (small : parts.flatten.length < 2 ^ 32) (rest : Bytes)
    (short : rest.length < 2 ^ 32) :
    RLP.payload (encodeList parts.flatten ++ rest) = .ok parts.flatten := by
  have limit : parts.flatten.length < readLimit := by
    rw [readLimit_eq]
    omega
  have framed := framed_encodeList rest limit
  have total := framed.length_eq
  have header := encodeList_length_le (small.trans (by decide : 2 ^ 32 < 2 ^ 64))
  apply framed.payload
  rw [sizeTRange_eq, List.length_append]
  omega

theorem at_parts_append (arePart : ∀ part ∈ parts, Part part)
    (small : parts.flatten.length < 2 ^ 32) (rest : Bytes)
    (short : rest.length < 2 ^ 32) {position : Nat}
    (inRange : position < parts.length) :
    at_ (encodeList parts.flatten ++ rest) position = .ok parts[position] := by
  have counted := length_le_flatten arePart
  have found := nthPart_parts arePart [] inRange
  rw [List.append_nil] at found
  rw [at_eq (payload_append small rest short)
    (by rw [sizeTRange_eq]; omega) (by rw [sizeTRange_eq]; omega)]
  exact found

theorem itemCount_parts_append (arePart : ∀ part ∈ parts, Part part)
    (small : parts.flatten.length < 2 ^ 32) (rest : Bytes)
    (short : rest.length < 2 ^ 32) :
    itemCount (encodeList parts.flatten ++ rest) = .ok parts.length := by
  have limit : parts.flatten.length < readLimit := by
    rw [readLimit_eq]
    omega
  have walked := itemsLoop_parts arePart (length_le_flatten arePart)
  simp only [itemCount, items, isList_encodeList rest limit, if_true,
    payload_append small rest short, bind, Except.bind, walked]

end

/-- A header reads as the frame it was written for. -/
theorem ofHeader_eq (small : frame.payload.length < 2 ^ 24) (rest : Bytes)
    (short : rest.length < 2 ^ 32) :
    ∃ info, RLPXFrameInfo.ofHeader (frame.header ++ rest) = .ok info ∧
      info.length = frame.payload.length ∧
      info.padding = (16 - frame.payload.length % 16) % 16 ∧
      (⟨info.length, info.protocolId, info.multiFrame, info.sequenceId,
        info.totalLength, frame.payload⟩ : Recovered) = frame.recovered := by
  have bound := frame.length_parts
  have inside : frame.parts.flatten.length < 2 ^ 32 := by omega
  have limit : frame.parts.flatten.length < readLimit := by
    rw [readLimit_eq]
    omega
  have narrow : frame.payload.length % 2 ^ 32 = frame.payload.length :=
    Nat.mod_eq_of_lt (by omega)
  have size : (((frame.header ++ rest).getD 0 0).toNat * 256 +
      ((frame.header ++ rest).getD 1 0).toNat) * 256 +
        ((frame.header ++ rest).getD 2 0).toNat = frame.payload.length := by
    simp only [header, RLPXFrameCoder.frameSize, narrow, List.cons_append,
      List.getD_cons_zero, List.getD_cons_succ, UInt8.toNat_ofNat',
      Nat.shiftRight_eq_div_pow]
    omega
  have data : croppedFrom (frame.header ++ rest) 3 =
      encodeList frame.parts.flatten ++ rest := by
    rw [croppedFrom_eq]
    · simp [header, RLPXFrameCoder.frameSize]
    · simp [header, RLPXFrameCoder.frameSize]
  have constructed := (framed_encodeList rest limit).construct_throwIfTooSmall
  have counted := itemCount_parts_append (fun _ => frame.part_parts) inside rest
    short
  have found : ∀ (position : Nat) (inRange : position < frame.fields.length),
      at_ (encodeList frame.parts.flatten ++ rest) position =
        .ok (encodeData (RLPStream.intContent frame.fields[position])) := by
    intro position inRange
    have listed : position < frame.parts.length := by simpa [parts] using inRange
    rw [at_parts_append (fun _ => frame.part_parts) inside rest short listed]
    simp [parts]
  have word : ∀ value : UInt16, toInt .uint16
      (encodeData (RLPStream.intContent value.toNat)) = .ok value.toNat :=
    fun value => toInt_intContent value.toNat_lt
  have zero : toInt .uint16 (encodeData (RLPStream.intContent 0)) = .ok 0 :=
    toInt_intContent (by decide)
  have count : frame.parts.length = frame.fields.length := by simp [parts]
  rw [count] at counted
  simp only [RLPXFrameInfo.ofHeader, size, data, constructed, counted, bind,
    Except.bind, pure, Except.pure]
  cases frame with
  | packet payload =>
      rw [found 0 (by simp [fields]), found 1 (by simp [fields])]
      simp [fields, zero, recovered]
  | single protocolType payload =>
      rw [found 0 (by simp [fields])]
      simp [fields, word, recovered]
  | continuation protocolType seqId payload =>
      rw [found 0 (by simp [fields]), found 1 (by simp [fields])]
      simp [fields, word, recovered]
  | first protocolType seqId totalSize payload =>
      rw [found 0 (by simp [fields]), found 1 (by simp [fields]),
        found 2 (by simp [fields])]
      have total : toInt .uint32 (encodeData (RLPStream.intContent
          totalSize.toNat)) = .ok totalSize.toNat :=
        toInt_intContent totalSize.toNat_lt
      simp [fields, word, total, recovered]

end Frame

/-- The header filled up to a block. -/
def Frame.block (frame : Frame) : Bytes := frame.header.takeD 16 0

theorem Frame.length_block (frame : Frame) : frame.block.length = 16 :=
  List.takeD_length 16 _ _

theorem takeD_of_length_le {content : Bytes} {size : Nat}
    (fits : content.length ≤ size) :
    content.takeD size 0 =
      content ++ List.replicate (size - content.length) 0 := by
  induction content generalizing size with
  | nil => simp
  | cons byte content induction =>
      rw [List.length_cons] at fits
      obtain ⟨smaller, rfl⟩ : ∃ smaller, size = smaller + 1 :=
        ⟨size - 1, by omega⟩
      rw [List.takeD_succ]
      simp [induction (show content.length ≤ smaller by omega)]

theorem Frame.block_eq (frame : Frame) :
    frame.block = frame.header ++
      List.replicate (16 - frame.header.length) 0 :=
  takeD_of_length_le frame.length_header

/-! ## Two ends -/

/-- An end reads a header, and then the frame that the header announces. -/
structure FrameEnd where
  coder : RLPXFrameCoder
  header : Option RLPXFrameInfo := none

namespace FrameEnd

def need (here : FrameEnd) : Nat :=
  match here.header with
  | none => 32
  | some info => info.length + info.padding + 16

variable [Hashing] [SessionCrypto]

def write (here : FrameEnd) (frame : Frame) :
    Except FrameError (Bytes × FrameEnd) := do
  let (bytes, coder) ← (frame.write here.coder).mapError .rlp
  return (bytes, { here with coder })

def read (here : FrameEnd) (io : Bytes) :
    Except FrameError (Option Recovered × FrameEnd) :=
  match here.header with
  | none =>
      match here.coder.authAndDecryptHeader io with
      | (none, _) => .error .headerDecryptFailed
      | (some header, coder) => do
          let info ← (RLPXFrameInfo.ofHeader header).mapError .rlp
          return (none, ⟨coder, some info⟩)
  | some info =>
      match here.coder.authAndDecryptFrame io with
      | (none, _) => .error .frameDecryptFailed
      | (some frame, coder) =>
          return (some ⟨info.length, info.protocolId, info.multiFrame,
            info.sequenceId, info.totalLength, frame.take info.length⟩,
            ⟨coder, none⟩)

def endpoint :
    Lockstep.Endpoint FrameEnd Frame Recovered FrameError UInt8 where
  write := write
  need := need
  feed := read

end FrameEnd

section

variable [Hashing] [SessionCrypto]

/-- A frame as the direction makes it. -/
def Direction.emit (direction : Direction) (frame : Frame) :
    Bytes × Direction :=
  let (head, between) := direction.emitHeader frame.block
  let (body, after) := between.emitPayload (padded frame.payload)
  (head ++ body, after)

/-- A length that the header has room for. -/
def Frame.Fits (frame : Frame) : Prop := frame.payload.length < 2 ^ 24

/-- The header of the frame has been read into `info`. -/
structure Announces (info : RLPXFrameInfo) (frame : Frame) : Prop where
  length : info.length = frame.payload.length
  padding : info.padding = (16 - frame.payload.length % 16) % 16
  recovered : (⟨info.length, info.protocolId, info.multiFrame,
    info.sequenceId, info.totalLength, frame.payload⟩ : Recovered) =
      frame.recovered

/-- The reader stands before a frame or between its header and payload. -/
inductive Reading (here : FrameEnd) (frame : Frame) :
    Bytes → Bytes → Direction → Prop
  | before (unread : here.header = none) :
      Reading here frame [] (here.coder.ingress.emit frame).1
        (here.coder.ingress.emit frame).2
  | between {info : RLPXFrameInfo} {front : Bytes}
      (announced : here.header = some info) (announces : Announces info frame)
      (header : front.length = 32) :
      Reading here frame front
        (here.coder.ingress.emitPayload (padded frame.payload)).1
        (here.coder.ingress.emitPayload (padded frame.payload)).2

theorem Reading.congr {here changed : FrameEnd} {frame : Frame}
    {front bytes : Bytes} {direction : Direction}
    (reading : Reading here frame front bytes direction)
    (sameHeader : changed.header = here.header)
    (sameIngress : changed.coder.ingress = here.coder.ingress) :
    Reading changed frame front bytes direction := by
  cases reading with
  | before unread =>
      rw [← sameIngress]
      exact .before (sameHeader.trans unread)
  | between announced announces header =>
      rw [← sameIngress]
      exact .between (sameHeader.trans announced) announces header

theorem FrameEnd.write_ok (here : FrameEnd) (frame : Frame) :
    ∃ changed, here.write frame =
        .ok ((here.coder.egress.emit frame).1, changed) ∧
      changed.coder.egress = (here.coder.egress.emit frame).2 ∧
      changed.header = here.header ∧
      changed.coder.ingress = here.coder.ingress := by
  obtain ⟨coder, written, egress, ingress⟩ :=
    @RLPXFrameCoder.writeFrameWith_eq _ _ here.coder frame.header
      frame.payload ⟨frame.header, []⟩ rfl
  refine ⟨{ here with coder }, ?_, egress, rfl, ingress⟩
  simp only [FrameEnd.write, frame.write_eq, written]
  rfl

theorem FrameEnd.read_ok {here : FrameEnd} {frame : Frame}
    {front bytes : Bytes} {direction : Direction} (fits : frame.Fits)
    (reading : Reading here frame front bytes direction) :
    here.need ≤ bytes.length ∧ ∃ outcome changed,
      here.read (bytes.take here.need) = .ok (outcome, changed) ∧
      changed.coder.egress = here.coder.egress ∧
      ((outcome = none ∧ Reading changed frame
          (front ++ bytes.take here.need) (bytes.drop here.need) direction) ∨
        (outcome = some frame.recovered ∧ bytes.length = here.need ∧
          changed.header = none ∧ changed.coder.ingress = direction)) := by
  cases reading with
  | before unread =>
      have block := frame.length_block
      have need : here.need = 32 := by simp only [FrameEnd.need, unread]
      obtain ⟨coder, read, ingress, egress⟩ :=
        @RLPXFrameCoder.authAndDecryptHeader_emit _ _ here.coder _ block
      have headLength : (here.coder.ingress.emitHeader frame.block).1.length =
          32 := by
        rw [Direction.length_emitHeader, block]
      obtain ⟨info, decoded, length, padding, recovered⟩ :=
        frame.ofHeader_eq fits
          (List.replicate (16 - frame.header.length) 0 ++
            (here.coder.ingress.emitHeader frame.block).2.mac.digest.val)
          (by simp; omega)
      rw [← List.append_assoc, ← frame.block_eq] at decoded
      refine ⟨?_, none, ⟨coder, some info⟩, ?_, egress, .inl ⟨rfl, ?_⟩⟩
      · simp only [need, Direction.emit, List.length_append, headLength]
        omega
      · simp only [need, Direction.emit, List.take_left' headLength,
          FrameEnd.read, unread, read, decoded]
        rfl
      · simp only [need, Direction.emit, List.take_left' headLength,
          List.drop_left' headLength, List.nil_append, ← ingress]
        exact .between rfl ⟨length, padding, recovered⟩ headLength
  | between announced announces header =>
      rename_i info
      have need : here.need = (here.coder.ingress.emitPayload
          (padded frame.payload)).1.length := by
        rw [Direction.length_emitPayload, length_padded]
        simp only [FrameEnd.need, announced, announces.length,
          announces.padding]
      obtain ⟨coder, read, ingress, egress⟩ :=
        @RLPXFrameCoder.authAndDecryptFrame_emit _ _ here.coder
          (padded frame.payload)
      refine ⟨Nat.le_of_eq need, some frame.recovered, ⟨coder, none⟩, ?_,
        egress, .inr ⟨rfl, need.symm, rfl, ingress⟩⟩
      rw [need, List.take_length]
      simp only [FrameEnd.read, announced, read]
      have payload : (padded frame.payload ++ (here.coder.ingress.emitPayload
          (padded frame.payload)).2.mac.digest.val).take info.length =
            frame.payload := by
        rw [padded, List.append_assoc, announces.length]
        exact List.take_left
      rw [payload, announces.recovered]
      rfl

/-- The two halves of the ends are mirror images. -/
def mirroring : Lockstep.Mirroring FrameEnd.endpoint Frame.Fits
    Frame.recovered Direction where
  emit := Direction.emit
  egress here := here.coder.egress
  Idle here direction :=
    here.header = none ∧ here.coder.ingress = direction
  Within here front bytes result direction := ∃ frame : Frame, frame.Fits ∧
    result = frame.recovered ∧ Reading here frame front bytes direction
  idle_need := by
    rintro here half ⟨unread, -⟩
    simp [FrameEnd.endpoint, FrameEnd.need, unread]
  write_ok := by
    intro here frame fits
    obtain ⟨changed, written, egress, header, ingress⟩ := here.write_ok frame
    refine ⟨changed, written, egress, ?_, ?_⟩
    · rintro half ⟨unread, same⟩
      exact ⟨header.trans unread, ingress.trans same⟩
    · rintro front bytes result half ⟨other, otherFits, named, reading⟩
      exact ⟨other, otherFits, named, reading.congr header ingress⟩
  start := by
    rintro here half frame ⟨unread, rfl⟩ fits
    exact ⟨frame, fits, rfl, .before unread⟩
  feed_ok := by
    rintro here front bytes result half ⟨frame, fits, rfl, reading⟩
    obtain ⟨enough, outcome, changed, read, egress, reached⟩ :=
      FrameEnd.read_ok fits reading
    refine ⟨enough, outcome, changed, read, egress, ?_⟩
    rcases reached with ⟨none_, later⟩ | ⟨some_, whole, unread, ingress⟩
    · exact .inl ⟨none_, frame, fits, rfl, later⟩
    · exact .inr ⟨some_, whole, unread, ingress⟩

/-! ## The ends of one handshake -/

theorem xorHash_twice {size : Nat} (left right : FixedHash size) :
    xorHash (xorHash left right) right = left := by
  apply Subtype.ext
  have length : left.val.length = right.val.length :=
    left.property.trans right.property.symm
  apply List.ext_getElem
  · simp [xorHash, length]
  · intro position _ _
    simp [xorHash, UInt8.xor_assoc]

variable {shared : Secret} {originatorKey recipientKey : KeyPair}
  {originatorPublic recipientPublic : Public}
  (originatorNonce recipientNonce : H256) (ackCipher authCipher : Bytes)

/-- What one end encrypts the other decrypts. -/
theorem setup_mirrors
    (near : agree originatorKey.secret recipientPublic = some shared)
    (far : agree recipientKey.secret originatorPublic = some shared) :
    ∃ originator recipient,
      RLPXFrameCoder.setup true recipientPublic recipientNonce originatorKey
        originatorNonce ackCipher authCipher = .ok originator ∧
      RLPXFrameCoder.setup false originatorPublic originatorNonce recipientKey
        recipientNonce ackCipher authCipher = .ok recipient ∧
      originator.egress = recipient.ingress ∧
      recipient.egress = originator.ingress := by
  simp only [RLPXFrameCoder.setup, near, far, Except.ok.injEq,
    exists_and_left, ↓existsAndEq, true_and]
  constructor
  · simp [RLPXFrameCoder.egress, RLPXFrameCoder.ingress, xorHash_twice]
  · simp [RLPXFrameCoder.egress, RLPXFrameCoder.ingress, xorHash_twice]

/-- How many bytes of the current frame the reader of an end has read. -/
def FrameEnd.consumed (here : FrameEnd) : Nat :=
  match here.header with
  | none => 0
  | some _ => 32

theorem flight_position {reader : FrameEnd} {wire : Bytes}
    {pending : List (Frame × Bytes)} {target : Direction}
    (flight : mirroring.Flight reader wire pending target) :
    wire = (pending.map Prod.snd).flatten.drop reader.consumed := by
  cases flight with
  | idle isIdle emits => simp [FrameEnd.consumed, isIdle.1]
  | within inside emits =>
      obtain ⟨frame, -, -, reading⟩ := inside
      cases reading with
      | before unread => simp [FrameEnd.consumed, unread]
      | between announced announces header =>
          simp only [FrameEnd.consumed, announced, List.map_cons,
            List.flatten_cons, List.append_assoc]
          exact (List.drop_left' header).symm

/-- Whatever the ends of a handshake write to each other, in whatever order
and however it is interleaved with the reads, no read fails, every frame is
recovered as it was written, and the bytes in flight are those of the frames
not read yet, from the position of the reader on. -/
theorem frameStream_inSync
    (near : agree originatorKey.secret recipientPublic = some shared)
    (far : agree recipientKey.secret originatorPublic = some shared) :
    ∃ originator recipient,
      RLPXFrameCoder.setup true recipientPublic recipientNonce originatorKey
        originatorNonce ackCipher authCipher = .ok originator ∧
      RLPXFrameCoder.setup false originatorPublic originatorNonce recipientKey
        recipientNonce ackCipher authCipher = .ok recipient ∧
      ∀ events : List (Lockstep.Event Frame),
        (∀ side frame, .write side frame ∈ events →
          frame.payload.length < 2 ^ 24) →
        ∃ final, events.foldlM (Lockstep.Connection.step FrameEnd.endpoint)
            (.opened ⟨originator, none⟩ ⟨recipient, none⟩) = .ok final ∧
          ∀ side, ∃ done pending,
            final.sent side = done ++ pending ∧
            final.got side = done.map (Frame.recovered ∘ Prod.fst) ∧
            final.wire side = (pending.map Prod.snd).flatten.drop
              (final.ends side.other).consumed ∧
            (pending ≠ [] →
              (final.ends side.other).need ≤ (final.wire side).length) := by
  obtain ⟨originator, recipient, begun, answered, outgoing, incoming⟩ :=
    setup_mirrors originatorNonce recipientNonce ackCipher authCipher near far
  refine ⟨originator, recipient, begun, answered, ?_⟩
  intro events fit
  have inStep : mirroring.InStep
      (.opened (⟨originator, none⟩ : FrameEnd) ⟨recipient, none⟩) :=
    Lockstep.Mirroring.inStep_opened ⟨rfl, outgoing.symm⟩ ⟨rfl, incoming.symm⟩
  obtain ⟨final, ran, held⟩ :=
    Lockstep.Mirroring.run_inStep events fit inStep
  refine ⟨final, ran, ?_⟩
  intro side
  obtain ⟨done, pending, listed, recovered, flight⟩ := held side
  refine ⟨done, pending, listed, recovered, flight_position flight, ?_⟩
  intro some_
  rcases flight.feed with ⟨none_, -⟩ | ⟨enough, -⟩
  · exact absurd none_ some_
  · exact enough

end

def streamSampleHashing : Hashing where
  sha3 content := hashOfNat (fromBigEndian content + content.length)
  trieRoot _ := hashOfNat 0

/-- A commuting key agreement in which a secret starts its public key. -/
def streamSampleCrypto : SessionCrypto where
  keyStream key position := UInt8.ofNat (fromBigEndian key.val + 7 * position)
  encryptBlock key block := xorHash (hashAt 16 key.val) block
  agree secret remote := some (xorHash secret (hashAt 32 remote.val))

attribute [local instance] streamSampleHashing streamSampleCrypto

theorem frameStream_inSync_sample :
    ∃ originator recipient,
      RLPXFrameCoder.setup true (hashAt 64 [2]) (hashOfNat 4)
        ⟨hashAt 64 [1], hashAt 32 [1]⟩ (hashOfNat 3) [6] [5] =
          .ok originator ∧
      RLPXFrameCoder.setup false (hashAt 64 [1]) (hashOfNat 3)
        ⟨hashAt 64 [2], hashAt 32 [2]⟩ (hashOfNat 4) [6] [5] =
          .ok recipient ∧
      ∃ final, [.write .near (.packet [1, 2]), .read .near,
          .write .far (.first 1 2 3 []), .read .near, .read .far].foldlM
            (Lockstep.Connection.step FrameEnd.endpoint)
            (.opened ⟨originator, none⟩ ⟨recipient, none⟩) = .ok final ∧
        ∃ done pending, final.sent .near = done ++ pending ∧
          final.got .near = done.map (Frame.recovered ∘ Prod.fst) := by
  obtain ⟨originator, recipient, begun, answered, runs⟩ :=
    @frameStream_inSync _ _ (hashAt 32 [3])
      ⟨hashAt 64 [1], hashAt 32 [1]⟩ ⟨hashAt 64 [2], hashAt 32 [2]⟩
      (hashAt 64 [1]) (hashAt 64 [2]) (hashOfNat 3) (hashOfNat 4) [6] [5]
      (by decide +kernel) (by decide +kernel)
  obtain ⟨final, ran, synced⟩ := runs [.write .near (.packet [1, 2]),
    .read .near, .write .far (.first 1 2 3 []), .read .near, .read .far] (by
      intro side frame member
      simp only [List.mem_cons, List.not_mem_nil, or_false, reduceCtorEq,
        false_or, Lockstep.Event.write.injEq] at member
      rcases member with ⟨-, rfl⟩ | ⟨-, rfl⟩
      · decide
      · decide)
  obtain ⟨done, pending, sent, got, -⟩ := synced .near
  exact ⟨originator, recipient, begun, answered, final, ran, done, pending,
    sent, got⟩

end Aecmio
