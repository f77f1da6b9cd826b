import Aecmio.Network.Session

/-!
# The write queue of a session

Any thread may queue a message.  The thread that finds the queue empty starts
a write, which replaces the message at the head by its frame; the handler of
a finished write takes the frame off and starts the next one.  At the other
end `doRead` reads the same bytes.
-/

namespace Aecmio

open RLP

/-- Both ends of one direction.  `due` counts the calls of `write` that are
to come, `flying` holds what the asynchronous writes under way have not
transmitted; the last four fields are the history. -/
structure Line where
  io : RLPXFrameCoder
  writeQueue : List Bytes := []
  due : Nat := 0
  flying : List Bytes := []
  wire : Bytes := []
  peer : Session
  reading : Bool := true
  accepted : List Bytes := []
  framed : List (Bytes × Bytes) := []
  endings : List Ending := []

/-- The sections that are not interrupted, and the progress of a write. -/
inductive LineEvent where
  | send (msg : Bytes)
  | write
  | transmit (position count : Nat)
  | complete (position : Nat)
  | read (reaction : Reaction)

/-- The messages given to `send`. -/
def LineEvent.sent : LineEvent → Option Bytes
  | send msg => some msg
  | _ => none

/-- What was handed to `readPacket`. -/
def Ending.packet : Ending → Option (Nat × Nat × Bytes)
  | .handed capId packetType item => some (capId, packetType, item)
  | _ => none

/-- The size of the buffer that `doRead` waits for. -/
def Session.need (session : Session) : Nat :=
  match session.header with
  | none => 32
  | some info => info.length + info.padding + 16

section

variable [Hashing] [SessionCrypto]

def Session.onData (records : Verbosity → Bool) (reaction : Reaction)
    (session : Session) (data : Bytes) : Ending × Session :=
  match session.header with
  | none => session.onHeader data
  | some info => session.onFrame records reaction info data

namespace Line

/-- `send`; a message that fails the check is only reported. -/
def send (records : Verbosity → Bool) (line : Line) (msg : Bytes) :
    Except RLPError Line := do
  if records .trace then
    RLP.print (← RLP.construct (RLP.croppedFrom msg 1) .veryStrict)
  let _ ← checkPacket msg
  let writeQueue := line.writeQueue ++ [msg]
  let due := if writeQueue.length = 1 then line.due + 1 else line.due
  return { line with writeQueue, due, accepted := line.accepted ++ [msg] }

/-- `write`, up to the start of the asynchronous write. -/
def write (line : Line) : Except RLPError Line :=
  if line.due = 0 then return line
  else
    match line.writeQueue with
    | [] => throw .outOfBounds
    | msg :: rest => do
        let (frame, io) ← line.io.writeSingleFramePacket msg
        return { line with
          io, writeQueue := frame :: rest
          due := line.due - 1
          flying := line.flying ++ [frame]
          framed := line.framed ++ [(msg, frame)] }

def transmit (line : Line) (position count : Nat) : Line :=
  match line.flying[position]? with
  | none => line
  | some left => { line with
      wire := line.wire ++ left.take count
      flying := line.flying.set position (left.drop count) }

/-- The handler of an asynchronous write. -/
def complete (line : Line) (position : Nat) : Except RLPError Line :=
  match line.flying[position]? with
  | some [] =>
      match line.writeQueue with
      | [] => throw .outOfBounds
      | _ :: writeQueue => return { line with
          flying := line.flying.eraseIdx position
          writeQueue
          due := if writeQueue.isEmpty then line.due else line.due + 1 }
  | _ => return line

/-- The callback that waits in `doRead`, once its bytes have arrived. -/
def read (records : Verbosity → Bool) (line : Line) (reaction : Reaction) :
    Line :=
  let size := line.peer.need
  if line.reading = false ∨ line.wire.length < size then line
  else
    let (ending, peer) :=
      line.peer.onData records reaction (line.wire.take size)
    { line with
      wire := line.wire.drop size
      peer
      reading := !ending.escapes && !peer.dropped
      endings := line.endings ++ [ending] }

def step (records : Verbosity → Bool) (line : Line) :
    LineEvent → Except RLPError Line
  | .send msg => line.send records msg
  | .write => line.write
  | .transmit position count => return line.transmit position count
  | .complete position => line.complete position
  | .read reaction => return line.read records reaction

def run (records : Verbosity → Bool) (events : List LineEvent) (line : Line) :
    Except RLPError Line :=
  events.foldlM (step records) line

end Line

end

/-- The state of the frame stream that `doRead` stands in. -/
def Session.stream (session : Session) : FrameEnd :=
  ⟨session.io, session.header⟩

namespace Line

/-- The packets handed to `readPacket`. -/
def handed (line : Line) : List (Nat × Nat × Bytes) :=
  line.endings.filterMap Ending.packet

/-- How a message is handed over: with its type and its item. -/
def packetOf (msg : Bytes) : Nat × Nat × Bytes :=
  (0, (msg.headD 0).toNat, msg.tail)

/-- Neither is a write to come nor is one under way, and the reader waits for
more bytes than there are. -/
def Quiet (line : Line) : Prop :=
  line.due = 0 ∧ line.flying = [] ∧ line.reading = true ∧
    line.wire.length < line.peer.need

/-- What is expected of a run that was given the messages: they are accepted
and framed in order, each once; they are handed over in order, each once; the
reader neither drops the session by itself nor throws; and where nothing moves
any more everything has been framed and handed over. -/
structure Delivers (line : Line) (messages : List Bytes) : Prop where
  accepted : line.accepted = messages
  framed : line.framed.map Prod.fst <+: line.accepted
  handed : line.handed <+: line.accepted.map packetOf
  sound : ∀ ending ∈ line.endings, ending.escapes = false ∧ ending ≠ .dropped
  started : line.due = 0 → line.flying = [] → line.writeQueue = []
  complete : line.Quiet → line.framed.map Prod.fst = line.accepted ∧
    line.handed = line.accepted.map packetOf

theorem handed_append {before : Line} {ending : Ending} :
    (before.endings ++ [ending]).filterMap Ending.packet =
      before.handed ++ ending.packet.toList := by
  rw [List.filterMap_append, handed]
  cases ending <;> rfl

theorem sound_append {ending : Ending} {before : Line}
    (sound : ∀ ending ∈ before.endings,
      ending.escapes = false ∧ ending ≠ .dropped)
    (last : ending.escapes = false ∧ ending ≠ .dropped) :
    ∀ other ∈ before.endings ++ [ending],
      other.escapes = false ∧ other ≠ .dropped := by
  intro other member
  rcases List.mem_append.mp member with earlier | this
  · exact sound other earlier
  · cases List.mem_singleton.mp this
    exact last

/-! ## Messages that arrive -/

/-- A message that its frame can announce, whose type byte can be read, and
which the log can print where it has to. -/
structure Conveyable (records : Verbosity → Bool) (msg : Bytes) : Prop where
  short : msg.length < 2 ^ 24
  nonzero : msg.head? ≠ some 0
  printable : records .trace = true ∨ records .debug = true →
    RLP.print msg.tail = .ok ()

/-- What `checkPacket` lets pass. -/
theorem isPacket_of_check {msg : Bytes} (passed : checkPacket msg = .ok true) :
    IsPacket msg := by
  have checkable : Checkable msg := by
    cases msg with
    | nil => cases passed
    | cons first item =>
        by_cases refused : 0x7f < first.toNat ∨ item = []
        · rw [checkPacket_refused refused] at passed
          cases passed
        · push Not at refused
          refine ⟨first, item, rfl, .inr (.inr ?_)⟩
          by_contra size
          obtain ⟨error, thrown⟩ :=
            checkPacket_thrown refused.1 refused.2 size
          rw [thrown] at passed
          cases passed
  obtain ⟨verdict, returned, meaning⟩ := (checked_iff msg).mpr checkable
  rw [passed] at returned
  cases returned
  exact meaning.mp rfl

/-- Such a message, once it is out of its frame, goes to `readPacket`. -/
theorem handleFrame_conveyed {records : Verbosity → Bool} {msg : Bytes}
    (reaction : Reaction) (packet : IsPacket msg)
    (conveyable : Conveyable records msg) :
    ∃ dropped, handleFrame records reaction 0 msg =
      .ok (.handed 0 (msg.headD 0).toNat msg.tail, dropped) := by
  obtain ⟨first, item, rfl, low, some_, size⟩ := packet
  have nonzero : first ≠ 0 := by
    intro zero
    exact conveyable.nonzero (by simp [zero])
  have prints : Printed records reaction → RLP.print item = .ok () := by
    intro printed
    apply conveyable.printable
    rcases printed with traced | ⟨debugged, -⟩
    · exact .inl traced
    · exact .inr debugged
  rw [handleFrame_packet records reaction 0 low some_ size, if_neg nonzero]
  obtain ⟨result, delivered⟩ :=
    (deliver_iff records reaction 0 first.toNat item).mpr prints
  obtain ⟨⟨understood, dropped⟩, read, rest⟩ := exists_of_bind_ok delivered
  refine ⟨dropped, ?_⟩
  rw [delivered]
  dsimp only at rest
  split at rest
  · obtain ⟨_, -, rest⟩ := exists_of_bind_ok rest
    exact rest.symm
  · exact rest.symm

variable [Hashing] [SessionCrypto] {records : Verbosity → Bool}

/-! ## The reader and the ends of the frame stream -/

theorem need_stream (session : Session) :
    FrameEnd.endpoint.need session.stream = session.need := rfl

/-- A header that the stream reads. -/
theorem onData_header {session : Session} {data : Bytes} {after : FrameEnd}
    (reaction : Reaction)
    (read : session.stream.read data = .ok (none, after)) :
    session.onData records reaction data =
      (.awaiting, { session with io := after.coder, header := after.header })
      := by
  unfold FrameEnd.read Session.stream at read
  unfold Session.onData
  split at read
  · rename_i unread
    dsimp only at unread read
    rw [unread]
    split at read
    · cases read
    · rename_i header io decrypted
      obtain ⟨info, decoded, rest⟩ := exists_of_bind_ok read
      cases Except.ok.inj rest
      simp [Session.onHeader, decrypted, mapError_ok decoded]
  · dsimp only at read
    split at read
    · cases read
    · cases read

/-- A frame that the stream reads. -/
theorem onData_frame {session : Session} {data : Bytes} {after : FrameEnd}
    {recovered : Recovered} (reaction : Reaction)
    (read : session.stream.read data = .ok (some recovered, after)) :
    after.header = none ∧ session.onData records reaction data =
      match handleFrame records reaction recovered.protocolId
          recovered.payload with
      | .ok (ending, dropped) => (ending, ⟨after.coder, none, dropped⟩)
      | .error error =>
          (.escaped error, { session with io := after.coder }) := by
  unfold FrameEnd.read Session.stream at read
  unfold Session.onData
  split at read
  · dsimp only at read
    split at read
    · cases read
    · obtain ⟨info, decoded, rest⟩ := exists_of_bind_ok read
      cases Except.ok.inj rest
  · rename_i info announced
    dsimp only at announced read
    rw [announced]
    split at read
    · cases read
    · rename_i text io decrypted
      simp only [pure, Except.pure, Except.ok.injEq, Prod.mk.injEq,
        Option.some.injEq] at read
      obtain ⟨rfl, rfl⟩ := read
      refine ⟨rfl, ?_⟩
      dsimp only
      unfold Session.onFrame
      rw [decrypted]
      dsimp only
      cases handleFrame records reaction info.protocolId
          (text.take info.length) with
      | ok result => rfl
      | error error => rw [announced]

/-! ## The write queue -/

/-- Where the writing stands: nothing is queued; or the call of `write` for
the message at the head is to come; or its frame, of which something is left,
is under way. -/
inductive Phase (line : Line) : List Bytes → Bytes → Prop
  | idle (queued : line.writeQueue = []) (due : line.due = 0)
      (flying : line.flying = []) : Phase line [] []
  | starting {msg : Bytes} {rest : List Bytes}
      (queued : line.writeQueue = msg :: rest) (due : line.due = 1)
      (flying : line.flying = []) : Phase line (msg :: rest) []
  | sending {frame left : Bytes} {rest : List Bytes}
      (queued : line.writeQueue = frame :: rest) (due : line.due = 0)
      (flying : line.flying = [left]) : Phase line rest left

/-- A frame of the stream for a message. -/
def asFrame (entry : Bytes × Bytes) : Frame × Bytes :=
  (.packet entry.1, entry.2)

/-- What the reader has handed over, and what is on its way to it. -/
structure Received (line : Line) (left : Bytes)
    (done pending : List (Bytes × Bytes)) : Prop where
  framed : line.framed = done ++ pending
  handed : line.handed = done.map (packetOf ∘ Prod.fst)
  sound : ∀ ending ∈ line.endings, ending.escapes = false ∧ ending ≠ .dropped
  flight : line.reading = true →
    mirroring.Flight line.peer.stream (line.wire ++ left)
      (pending.map asFrame) line.io.egress

/-- The invariant of a run that was given the messages. -/
def InOrder (records : Verbosity → Bool) (line : Line)
    (messages : List Bytes) : Prop :=
  line.accepted = messages ∧
    (∀ msg ∈ messages, IsPacket msg ∧ Conveyable records msg) ∧
    ∃ waiting left done pending, Phase line waiting left ∧
      messages = line.framed.map Prod.fst ++ waiting ∧
      Received line left done pending

variable {line : Line} {messages : List Bytes}

theorem phase_send {waiting : List Bytes} {left msg : Bytes}
    (phase : Phase line waiting left) :
    Phase { line with
        writeQueue := line.writeQueue ++ [msg]
        due := if (line.writeQueue ++ [msg]).length = 1 then line.due + 1
          else line.due
        accepted := line.accepted ++ [msg] } (waiting ++ [msg]) left := by
  cases phase with
  | idle queued due flying =>
      apply Phase.starting
      · simp [queued]
      · simp [queued, due]
      · exact flying
  | starting queued due flying =>
      apply Phase.starting
      · simp [queued]
      · simp [queued, due]
      · exact flying
  | sending queued due flying =>
      rename_i frame
      have longer : line.writeQueue ++ [msg] = frame :: (waiting ++ [msg]) := by
        rw [queued, List.cons_append]
      apply Phase.sending longer
      · simp [queued, due]
      · exact flying

theorem send_ok {msg : Bytes} (inOrder : InOrder records line messages)
    (packet : checkPacket msg = .ok true)
    (conveyable : Conveyable records msg) :
    ∃ next, line.send records msg = .ok next ∧
      InOrder records next (messages ++ [msg]) := by
  obtain ⟨accepted, good, waiting, left, done, pending, phase, ordered,
    received⟩ := inOrder
  have isPacket := isPacket_of_check packet
  have logged : ∀ next : Except RLPError Line,
      (if records .trace = true then (do
          RLP.print (← RLP.construct (RLP.croppedFrom msg 1) .veryStrict)
          next)
        else next) = next := by
    intro next
    split
    · rename_i traced
      obtain ⟨first, item, rfl, low, some_, size⟩ := isPacket
      have constructed : construct item .veryStrict = .ok item :=
        construct_veryStrict_iff.mpr ⟨size, rfl⟩
      have prints : RLP.print item = .ok () :=
        conveyable.printable (.inl traced)
      simp [croppedFrom_one, constructed, prints, bind, Except.bind]
    · rfl
  refine ⟨_, ?_, ?_, ?_, waiting ++ [msg], left, done, pending,
    phase_send phase, ?_, ?_⟩
  · simp only [send, packet]
    exact logged _
  · simp only [accepted]
  · intro other member
    rcases List.mem_append.mp member with earlier | last
    · exact good other earlier
    · cases List.mem_singleton.mp last
      exact ⟨isPacket, conveyable⟩
  · rw [ordered, List.append_assoc]
  · exact ⟨received.framed, received.handed, received.sound, received.flight⟩

theorem write_ok (inOrder : InOrder records line messages) :
    ∃ next, line.write = .ok next ∧ InOrder records next messages := by
  have invariant := inOrder
  obtain ⟨accepted, good, waiting, left, done, pending, phase, ordered,
    received⟩ := inOrder
  cases phase with
  | idle queued due flying =>
      refine ⟨line, ?_, invariant⟩
      simp only [write, due, if_true]
      rfl
  | sending queued due flying =>
      refine ⟨line, ?_, invariant⟩
      simp only [write, due, if_true]
      rfl
  | starting queued due flying =>
      rename_i msg rest
      have member : msg ∈ messages := by simp [ordered]
      obtain ⟨io, written, egress, ingress⟩ :=
        @RLPXFrameCoder.writeFrameWith_eq _ _ line.io
          (Frame.packet msg).header msg ⟨(Frame.packet msg).header, []⟩ rfl
      have framing : line.io.writeSingleFramePacket msg =
          .ok ((line.io.egress.emit (.packet msg)).1, io) :=
        ((Frame.packet msg).write_eq line.io).trans written
      refine ⟨{ line with
        io, writeQueue := (line.io.egress.emit (.packet msg)).1 :: rest
        due := 0, flying := [(line.io.egress.emit (.packet msg)).1]
        framed := line.framed ++
          [(msg, (line.io.egress.emit (.packet msg)).1)] }, ?_, ?_⟩
      · simp only [write, due, queued, flying, framing]
        rfl
      · refine ⟨accepted, good, rest,
          (line.io.egress.emit (.packet msg)).1, done,
          pending ++ [(msg, (line.io.egress.emit (.packet msg)).1)],
          .sending rfl rfl rfl, ?_, ?_, received.handed, received.sound, ?_⟩
        · simp [ordered]
        · simp [received.framed]
        · intro reading
          have flight := received.flight reading
          rw [List.append_nil] at flight
          have fits : (Frame.packet msg).Fits := (good msg member).2.short
          have longer := flight.concat fits
          rw [List.map_append, egress]
          exact longer

theorem transmit_ok (inOrder : InOrder records line messages)
    (position count : Nat) :
    InOrder records (line.transmit position count) messages := by
  have invariant := inOrder
  obtain ⟨accepted, good, waiting, left, done, pending, phase, ordered,
    received⟩ := inOrder
  unfold transmit
  split
  · exact invariant
  rename_i remaining found
  have flying : line.flying = [left] ∧ remaining = left ∧ position = 0 := by
    cases phase with
    | idle queued due flying =>
        rw [flying] at found
        cases found
    | starting queued due flying =>
        rw [flying] at found
        cases found
    | sending queued due flying =>
        rw [flying] at found
        cases position with
        | zero =>
            cases Option.some.inj found
            exact ⟨flying, rfl, rfl⟩
        | succ position => cases found
  obtain ⟨single, rfl, rfl⟩ := flying
  cases phase with
  | idle queued due flying =>
      rw [flying] at single
      cases single
  | starting queued due flying =>
      rw [flying] at single
      cases single
  | sending queued due flying =>
      refine ⟨accepted, good, waiting, remaining.drop count, done, pending,
        .sending queued due (by simp [flying]), ordered, received.framed,
        received.handed, received.sound, ?_⟩
      intro reading
      rw [List.append_assoc, List.take_append_drop]
      exact received.flight reading

theorem complete_ok (inOrder : InOrder records line messages)
    (position : Nat) :
    ∃ next, line.complete position = .ok next ∧
      InOrder records next messages := by
  have invariant := inOrder
  obtain ⟨accepted, good, waiting, left, done, pending, phase, ordered,
    received⟩ := inOrder
  unfold complete
  split
  · rename_i finished
    cases phase with
    | idle queued due flying =>
        rw [flying] at finished
        cases finished
    | starting queued due flying =>
        rw [flying] at finished
        cases finished
    | sending queued due flying =>
        rw [flying] at finished
        cases position with
        | succ position => cases finished
        | zero =>
            cases Option.some.inj finished
            rw [queued]
            refine ⟨_, rfl, accepted, good, waiting, [], done, pending, ?_,
              ordered, received.framed, received.handed, received.sound,
              received.flight⟩
            cases waiting with
            | nil => exact .idle rfl due (by simp [flying])
            | cons msg rest =>
                exact .starting rfl (by simp [due]) (by simp [flying])
  · exact ⟨line, rfl, invariant⟩

/-! ## The reader -/

theorem read_ok (inOrder : InOrder records line messages)
    (reaction : Reaction) :
    InOrder records (line.read records reaction) messages := by
  have invariant := inOrder
  obtain ⟨accepted, good, waiting, left, done, pending, phase, ordered,
    received⟩ := inOrder
  by_cases stays : line.reading = false ∨ line.wire.length < line.peer.need
  · simpa only [read, if_pos stays] using invariant
  have stood := stays
  push Not at stays
  obtain ⟨still, arrived⟩ := stays
  have reading : line.reading = true := by simpa using still
  have front : (line.wire ++ left).take line.peer.need =
      line.wire.take line.peer.need := List.take_append_of_le_length arrived
  have back : (line.wire ++ left).drop line.peer.need =
      line.wire.drop line.peer.need ++ left :=
    List.drop_append_of_le_length arrived
  rcases (received.flight reading).feed with ⟨-, short⟩ | ⟨enough, outcome,
    changed, fed, -, reached⟩
  · rw [need_stream, List.length_append] at short
    omega
  rw [need_stream, front] at fed
  rw [need_stream, back] at reached
  simp only [read, if_neg stood]
  rcases reached with ⟨rfl, later⟩ | ⟨packet, frame, rest, listed, rfl, later⟩
  · rw [onData_header reaction fed]
    refine ⟨accepted, good, waiting, left, done, pending, ?_, ordered,
      received.framed, ?_, sound_append received.sound (by simp [Ending.escapes]),
      fun _ => later⟩
    · cases phase with
      | idle queued due flying => exact .idle queued due flying
      | starting queued due flying => exact .starting queued due flying
      | sending queued due flying => exact .sending queued due flying
    · rw [← received.handed]
      simp [handed, Ending.packet]
  · obtain ⟨entry, others, rfl, same, rfl⟩ := List.map_eq_cons_iff.mp listed
    obtain ⟨msg, bytes⟩ := entry
    cases same
    have member : msg ∈ messages := by simp [ordered, received.framed]
    obtain ⟨unread, ended⟩ := onData_frame reaction fed
    obtain ⟨dropped, handled⟩ :=
      handleFrame_conveyed reaction (good msg member).1 (good msg member).2
    have shown : handleFrame records reaction
        (Frame.packet msg).recovered.protocolId
        (Frame.packet msg).recovered.payload =
          .ok (.handed 0 (msg.headD 0).toNat msg.tail, dropped) := handled
    rw [shown] at ended
    rw [ended]
    refine ⟨accepted, good, waiting, left, done ++ [(msg, bytes)], others, ?_,
      ordered, ?_, ?_, sound_append received.sound (by simp [Ending.escapes]),
      fun _ => ?_⟩
    · cases phase with
      | idle queued due flying => exact .idle queued due flying
      | starting queued due flying => exact .starting queued due flying
      | sending queued due flying => exact .sending queued due flying
    · simp [received.framed]
    · have joined := @handed_append line
        (.handed 0 (msg.headD 0).toNat msg.tail)
      rw [received.handed] at joined
      rw [handed, joined]
      simp [Ending.packet, packetOf]
    · have stream : changed = ⟨changed.coder, none⟩ := by rw [← unread]
      rw [stream] at later
      exact later

/-! ## Runs -/

theorem step_ok (event : LineEvent) (inOrder : InOrder records line messages)
    (good : ∀ msg, event.sent = some msg →
      checkPacket msg = .ok true ∧ Conveyable records msg) :
    ∃ next, line.step records event = .ok next ∧
      InOrder records next (messages ++ event.sent.toList) := by
  cases event with
  | send msg =>
      obtain ⟨packet, conveyable⟩ := good msg rfl
      exact send_ok inOrder packet conveyable
  | write =>
      simpa [LineEvent.sent, step] using write_ok inOrder
  | transmit position count =>
      refine ⟨_, rfl, ?_⟩
      simpa [LineEvent.sent] using transmit_ok inOrder position count
  | complete position =>
      simpa [LineEvent.sent, step] using complete_ok inOrder position
  | read reaction =>
      refine ⟨_, rfl, ?_⟩
      simpa [LineEvent.sent] using read_ok inOrder reaction

theorem run_ok (events : List LineEvent)
    (inOrder : InOrder records line messages)
    (good : ∀ msg, LineEvent.send msg ∈ events →
      checkPacket msg = .ok true ∧ Conveyable records msg) :
    ∃ final, line.run records events = .ok final ∧
      InOrder records final
        (messages ++ events.filterMap LineEvent.sent) := by
  induction events generalizing line messages with
  | nil => exact ⟨line, rfl, by simpa using inOrder⟩
  | cons event events induction =>
      have first : ∀ msg, event.sent = some msg →
          checkPacket msg = .ok true ∧ Conveyable records msg := by
        intro msg sent
        cases event with
        | send other =>
            cases sent
            exact good msg List.mem_cons_self
        | write => cases sent
        | transmit position count => cases sent
        | complete position => cases sent
        | read reaction => cases sent
      obtain ⟨next, stepped, kept⟩ := step_ok event inOrder first
      obtain ⟨final, ran, held⟩ := induction kept fun msg member =>
        good msg (List.mem_cons_of_mem _ member)
      refine ⟨final, ?_, ?_⟩
      · simp only [run, List.foldlM_cons, stepped]
        exact ran
      · have joined : messages ++ event.sent.toList ++
            events.filterMap LineEvent.sent =
              messages ++ (event :: events).filterMap LineEvent.sent := by
          cases sent : event.sent with
          | none => simp [List.filterMap_cons, sent]
          | some msg => simp [List.filterMap_cons, sent]
        rw [← joined]
        exact held

theorem delivers_of_inOrder (inOrder : InOrder records line messages) :
    line.Delivers messages := by
  obtain ⟨accepted, good, waiting, left, done, pending, phase, ordered,
    received⟩ := inOrder
  have handed : line.handed = (done.map Prod.fst).map packetOf := by
    rw [received.handed, List.map_map]
  have split : line.accepted = done.map Prod.fst ++
      (pending.map Prod.fst ++ waiting) := by
    rw [accepted, ordered, received.framed, List.map_append,
      List.append_assoc]
  constructor
  · exact accepted
  · rw [accepted, ordered]
    exact List.prefix_append _ _
  · rw [handed, split, List.map_append]
    exact List.prefix_append _ _
  · exact received.sound
  · intro due flying
    cases phase with
    | idle queued due flying => exact queued
    | starting queued started flying =>
        rw [started] at due
        cases due
    | sending queued due flown =>
        rw [flown] at flying
        cases flying
  · rintro ⟨due, flying, reading, short⟩
    cases phase with
    | idle queued due flying =>
        have flight := received.flight reading
        rw [List.append_nil] at flight
        rcases flight.feed with ⟨none_, -⟩ | ⟨enough, -⟩
        · have empty : pending = [] := by simpa using none_
          rw [handed, split, received.framed, empty]
          simp
        · rw [need_stream] at enough
          omega
    | starting queued started flying =>
        rw [started] at due
        cases due
    | sending queued due flown =>
        rw [flown] at flying
        cases flying

/-- Whatever threads send and however their calls, the writes and the reads
interleave: every message that its frame can announce, whose type byte is not
zero and which the log can print is framed once and handed over once, in the
order of the queue. -/
theorem session_delivers {io : RLPXFrameCoder} {peer : Session}
    (mirrored : peer.io.ingress = io.egress) (unread : peer.header = none)
    (events : List LineEvent)
    (packets : ∀ msg, .send msg ∈ events → checkPacket msg = .ok true)
    (conveyable : ∀ msg, .send msg ∈ events → Conveyable records msg) :
    ∃ final, Line.run records events { io, peer } = .ok final ∧
      final.Delivers (events.filterMap LineEvent.sent) := by
  have started : InOrder records { io, peer } [] := by
    refine ⟨rfl, fun _ member => absurd member List.not_mem_nil, [], [], [],
      [], .idle rfl rfl rfl, rfl, rfl, rfl,
      fun _ member => absurd member List.not_mem_nil, fun _ => ?_⟩
    have idle : mirroring.Idle peer.stream io.egress := ⟨unread, mirrored⟩
    exact .idle idle (.nil _)
  obtain ⟨final, ran, held⟩ := run_ok events started fun msg member =>
    ⟨packets msg member, conveyable msg member⟩
  refine ⟨final, ran, ?_⟩
  rw [List.nil_append] at held
  exact delivers_of_inOrder held

/-! ## Messages that are too long -/

/-- Three bytes announce the length. -/
theorem ofHeader_length {header : Bytes} {info : RLPXFrameInfo}
    (decoded : RLPXFrameInfo.ofHeader header = .ok info) :
    info.length < 2 ^ 24 := by
  have high := (header.getD 0 0).toNat_lt
  have middle := (header.getD 1 0).toNat_lt
  have low := (header.getD 2 0).toNat_lt
  have announced : info.length =
      ((header.getD 0 0).toNat * 256 + (header.getD 1 0).toNat) * 256 +
        (header.getD 2 0).toNat := by
    unfold RLPXFrameInfo.ofHeader at decoded
    obtain ⟨view, -, decoded⟩ := exists_of_bind_ok decoded
    obtain ⟨part, -, decoded⟩ := exists_of_bind_ok decoded
    obtain ⟨protocolId, -, decoded⟩ := exists_of_bind_ok decoded
    obtain ⟨count, -, decoded⟩ := exists_of_bind_ok decoded
    have last : ∀ make : Nat → RLPXFrameInfo,
        (∀ totalLength, (make totalLength).length = (make 0).length) →
        (do
          let count ← RLP.itemCount view
          let totalLength ← if count = 3 then do
              RLP.toInt .uint32 (← RLP.at_ view 2)
            else pure 0
          return make totalLength : Except RLPError _) = .ok info →
        info.length = (make 0).length := by
      intro make same accepted
      obtain ⟨count, -, accepted⟩ := exists_of_bind_ok accepted
      dsimp only at accepted
      split at accepted
      · obtain ⟨part, -, accepted⟩ := exists_of_bind_ok accepted
        obtain ⟨totalLength, -, accepted⟩ := exists_of_bind_ok accepted
        rw [← Except.ok.inj accepted]
        exact same totalLength
      · obtain ⟨totalLength, -, accepted⟩ := exists_of_bind_ok accepted
        rw [← Except.ok.inj accepted]
        exact same totalLength
    dsimp only at decoded
    split at decoded
    · obtain ⟨part, -, decoded⟩ := exists_of_bind_ok decoded
      obtain ⟨sequenceId, -, decoded⟩ := exists_of_bind_ok decoded
      exact last (fun totalLength => ⟨_, _, _, _, _, sequenceId, totalLength⟩)
        (fun _ => rfl) decoded
    · obtain ⟨sequenceId, -, decoded⟩ := exists_of_bind_ok decoded
      exact last (fun totalLength => ⟨_, _, _, _, _, sequenceId, totalLength⟩)
        (fun _ => rfl) decoded
  omega

/-- A reader that logs nothing and whose packets are all understood. -/
def silent : Verbosity → Bool := fun _ => false

def understood : Reaction := .returned true false

theorem handleFrame_silent {protocolId : Nat} {frame : Bytes}
    {result : Ending × Bool}
    (ended : handleFrame silent understood protocolId frame = .ok result) :
    result.1 = .dropped ∨ result.2 = false ∧
      ∀ packet, result.1.packet = some packet →
        packet.2.2.length < frame.length := by
  obtain ⟨passed, checked, rest⟩ := exists_of_bind_ok ended
  cases passed with
  | false =>
      cases Except.ok.inj rest
      exact .inl rfl
  | true =>
      obtain ⟨typeByte, -, rest⟩ := exists_of_bind_ok rest
      obtain ⟨packetType, -, rest⟩ := exists_of_bind_ok rest
      obtain ⟨item, constructed, rest⟩ := exists_of_bind_ok rest
      cases Except.ok.inj rest
      refine .inr ⟨rfl, ?_⟩
      intro packet handed
      cases handed
      cases frame with
      | nil => cases checked
      | cons first others =>
          rw [croppedFrom_one] at constructed
          rw [(construct_veryStrict_iff.mp constructed).2]
          simp

/-- Nothing longer than a header can announce is being read or has been
handed over. -/
structure Bounded (line : Line) : Prop where
  kept : line.reading = true → line.peer.dropped = false
  header : ∀ info, line.peer.header = some info → info.length < 2 ^ 24
  handed : ∀ packet ∈ line.handed, packet.2.2.length < 2 ^ 24

/-- The reader has dropped the session or thrown. -/
def Broken (line : Line) : Prop :=
  ∃ ending ∈ line.endings, ending.escapes = true ∨ ending = .dropped

theorem onData_bounded {session : Session} {data : Bytes}
    (kept : session.dropped = false)
    (header : ∀ info, session.header = some info → info.length < 2 ^ 24) :
    ((session.onData silent understood data).1.escapes = true ∨
      (session.onData silent understood data).1 = .dropped) ∨
    (session.onData silent understood data).2.dropped = false ∧
      (∀ info, (session.onData silent understood data).2.header = some info →
        info.length < 2 ^ 24) ∧
      ∀ packet,
        (session.onData silent understood data).1.packet = some packet →
          packet.2.2.length < 2 ^ 24 := by
  unfold Session.onData
  split
  · unfold Session.onHeader
    split
    · exact .inl (.inr rfl)
    · split
      · rename_i info decoded
        refine .inr ⟨kept, ?_, ?_⟩
        · intro announced same
          cases same
          exact ofHeader_length decoded
        · intro packet handed
          cases handed
      · split
        · exact .inl (.inr rfl)
        · exact .inl (.inl rfl)
  · rename_i info announced
    have short := header info announced
    unfold Session.onFrame
    split
    · exact .inl (.inr rfl)
    · split
      · rename_i ending dropped ended
        rcases handleFrame_silent ended with refused | ⟨stays, inside⟩
        · exact .inl (.inr refused)
        · refine .inr ⟨stays, ?_, ?_⟩
          · intro other same
            cases same
          · intro packet handed
            have shorter := inside packet handed
            rw [List.length_take] at shorter
            omega
      · exact .inl (.inl rfl)

theorem need_pos (session : Session) : 0 < session.need := by
  unfold Session.need
  split
  · decide
  · omega

/-- A read leaves less to be read. -/
theorem read_bounded (bounded : Bounded line) (reading : line.reading = true)
    (arrived : line.peer.need ≤ line.wire.length) :
    (line.read silent understood).wire.length < line.wire.length ∧
      (Broken (line.read silent understood) ∨
        Bounded (line.read silent understood) ∧
          (line.read silent understood).reading = true) := by
  have positive := need_pos line.peer
  have proceeds : ¬ (line.reading = false ∨
      line.wire.length < line.peer.need) := by
    rw [reading]
    simp
    omega
  simp only [read, if_neg proceeds]
  constructor
  · rw [List.length_drop]
    omega
  · rcases onData_bounded (bounded.kept reading) bounded.header with bad |
      ⟨kept, header, handed⟩
    · left
      exact ⟨_, List.mem_append_right _ (List.mem_singleton_self _), bad⟩
    · by_cases escapes : (line.peer.onData silent understood
          (line.wire.take line.peer.need)).1.escapes = true
      · left
        exact ⟨_, List.mem_append_right _ (List.mem_singleton_self _),
          .inl escapes⟩
      · right
        refine ⟨⟨fun _ => kept, header, ?_⟩, ?_⟩
        · intro packet member
          simp only [Line.handed, handed_append] at member
          rcases List.mem_append.mp member with earlier | last
          · exact bounded.handed packet earlier
          · exact handed packet (Option.mem_toList.mp last)
        · simp [escapes, kept]

theorem read_kept (reaction : Reaction) :
    (line.read records reaction).due = line.due ∧
      (line.read records reaction).flying = line.flying ∧
      (line.read records reaction).accepted = line.accepted := by
  unfold read
  dsimp only
  split
  · exact ⟨rfl, rfl, rfl⟩
  · exact ⟨rfl, rfl, rfl⟩

/-- Reads alone come to an end. -/
theorem drains (bounded : Bounded line) (reading : line.reading = true) :
    ∃ count final,
      line.run silent (List.replicate count (.read understood)) = .ok final ∧
        final.due = line.due ∧ final.flying = line.flying ∧
        final.accepted = line.accepted ∧
        (Broken final ∨ Bounded final ∧ final.reading = true ∧
          final.wire.length < final.peer.need) := by
  generalize remaining : line.wire.length = size
  induction size using Nat.strong_induction_on generalizing line with
  | h size induction =>
      subst remaining
      by_cases arrived : line.peer.need ≤ line.wire.length
      · obtain ⟨shorter, outcome⟩ := read_bounded bounded reading arrived
        obtain ⟨due, flying, accepted⟩ := @read_kept _ _ silent line understood
        rcases outcome with broken | ⟨still, reads⟩
        · exact ⟨1, line.read silent understood, rfl, due, flying, accepted,
            .inl broken⟩
        · obtain ⟨count, final, ran, keptDue, keptFlying, keptAccepted,
            ended⟩ := induction _ shorter still reads rfl
          refine ⟨count + 1, final, ?_, keptDue.trans due,
            keptFlying.trans flying, keptAccepted.trans accepted, ended⟩
          exact ran
      · exact ⟨0, line, rfl, rfl, rfl, rfl,
          .inr ⟨bounded, reading, by omega⟩⟩

/-- One message is sent, framed and transmitted. -/
theorem run_single {io : RLPXFrameCoder} {peer : Session} {msg : Bytes}
    (packet : checkPacket msg = .ok true) :
    ∃ frame after,
      Line.run silent [.send msg, .write, .transmit 0 frame.length,
          .complete 0] { io, peer } =
        .ok { io := after, peer, wire := frame, accepted := [msg],
              framed := [(msg, frame)] } := by
  obtain ⟨after, written, -, -⟩ :=
    @RLPXFrameCoder.writeFrameWith_eq _ _ io (Frame.packet msg).header msg
      ⟨(Frame.packet msg).header, []⟩ rfl
  have framing : io.writeSingleFramePacket msg =
      .ok ((io.egress.emit (.packet msg)).1, after) :=
    ((Frame.packet msg).write_eq io).trans written
  generalize (io.egress.emit (.packet msg)).1 = frame at framing
  refine ⟨frame, after, ?_⟩
  have sent : Line.send silent { io, peer } msg =
      .ok { io, peer, writeQueue := [msg], due := 1, accepted := [msg] } := by
    simp only [send, packet]
    rfl
  have begun : Line.write
      { io, peer, writeQueue := [msg], due := 1, accepted := [msg] } =
      .ok { io := after, peer, writeQueue := [frame], flying := [frame],
            accepted := [msg], framed := [(msg, frame)] } := by
    simp only [write, framing]
    rfl
  have transmitted : Line.transmit
      { io := after, peer, writeQueue := [frame], flying := [frame],
        accepted := [msg], framed := [(msg, frame)] } 0 frame.length =
      { io := after, peer, writeQueue := [frame], flying := [[]],
        wire := frame, accepted := [msg], framed := [(msg, frame)] } := by
    simp [transmit]
  simp only [run, List.foldlM_cons, List.foldlM_nil, step, sent, begun,
    transmitted, bind, Except.bind, pure, Except.pure]
  rfl

/-- A message that no header can announce is queued and framed like every
other one, but not handed over. -/
theorem oversize_lost {io : RLPXFrameCoder} {peer : Session} {msg : Bytes}
    (packet : checkPacket msg = .ok true)
    (long : 2 ^ 24 ≤ (packetOf msg).2.2.length)
    (kept : peer.dropped = false) (unread : peer.header = none) :
    ∃ events final, (∀ other, .send other ∈ events → other = msg) ∧
      events.filterMap LineEvent.sent = [msg] ∧
      Line.run silent events { io, peer } = .ok final ∧
      ¬ final.Delivers [msg] := by
  obtain ⟨frame, after, queued⟩ := @run_single _ _ io peer msg packet
  have bounded : Bounded
      { io := after, peer, wire := frame, accepted := [msg],
        framed := [(msg, frame)] } := by
    refine ⟨fun _ => kept, ?_, fun _ member => absurd member List.not_mem_nil⟩
    intro info announced
    rw [unread] at announced
    cases announced
  obtain ⟨count, final, ran, due, flying, accepted, ended⟩ :=
    drains bounded rfl
  refine ⟨[.send msg, .write, .transmit 0 frame.length, .complete 0] ++
    List.replicate count (.read understood), final, ?_, ?_, ?_, ?_⟩
  · intro other member
    simpa [List.mem_replicate] using member
  · simp [LineEvent.sent]
  · unfold run at queued ran ⊢
    rw [List.foldlM_append, queued]
    exact ran
  · intro delivers
    rcases ended with ⟨ending, member, bad⟩ | ⟨still, reading, short⟩
    · obtain ⟨contained, stays⟩ := delivers.sound ending member
      rcases bad with escapes | dropped
      · rw [contained] at escapes
        cases escapes
      · exact stays dropped
    · obtain ⟨-, handed⟩ := delivers.complete ⟨due, flying, reading, short⟩
      rw [accepted] at handed
      have present : packetOf msg ∈ final.handed := by
        rw [handed]
        simp
      have bound := still.handed _ present
      omega

/-- A type byte and a string of so many zeros. -/
def zeros (size : Nat) : Bytes :=
  0x10 :: Item.encodeData (List.replicate size 0)

variable {size : Nat}

omit [Hashing] [SessionCrypto] in
theorem zeros_packet (small : size < readLimit) :
    checkPacket (zeros size) = .ok true := by
  have limit : (List.replicate size (0 : UInt8)).length < readLimit := by
    rw [List.length_replicate]
    exact small
  have positive := Item.encodeData_pos (List.replicate size (0 : UInt8))
  have low : (0x10 : UInt8).toNat ≤ 0x7f := by decide
  exact checkPacket_passed low (List.ne_nil_of_length_pos positive)
    (construct_veryStrict_iff.mp (Part.data limit).construct_veryStrict).1

omit [Hashing] [SessionCrypto] in
theorem zeros_long : size ≤ (packetOf (zeros size)).2.2.length := by
  have inside := Item.length_le_encodeData (List.replicate size (0 : UInt8))
  rw [List.length_replicate] at inside
  exact inside

end Line

attribute [local instance] streamSampleHashing streamSampleCrypto

/-- A session before its first packet. -/
def sessionSample : Session := ⟨sessionSampleCoder, none, false⟩

theorem session_delivers_sample :
    ∃ final, Line.run (fun _ => true) [.send [2, 0xc0], .send [3, 0xc0],
        .write, .transmit 0 48, .read .threw]
          { io := sessionSampleCoder, peer := sessionSample } = .ok final ∧
      final.Delivers [[2, 0xc0], [3, 0xc0]] := by
  apply Line.session_delivers rfl rfl
  · intro msg member
    simp only [List.mem_cons, LineEvent.send.injEq, reduceCtorEq, or_false,
      List.not_mem_nil] at member
    rcases member with rfl | rfl
    · decide +kernel
    · decide +kernel
  · intro msg member
    simp only [List.mem_cons, LineEvent.send.injEq, reduceCtorEq, or_false,
      List.not_mem_nil] at member
    rcases member with rfl | rfl
    · exact ⟨by decide, by decide, fun _ => by decide +kernel⟩
    · exact ⟨by decide, by decide, fun _ => by decide +kernel⟩

/-- Without a bound on the length the stream does not deliver: a packet whose
item holds `2 ^ 24` zeros passes the check, is queued and framed, and is
never handed over. -/
theorem oversizeMessage_lost :
    ¬ ∀ (records : Verbosity → Bool) (events : List LineEvent),
        (∀ msg, .send msg ∈ events → checkPacket msg = .ok true) →
        ∃ final, Line.run records events
            { io := sessionSampleCoder, peer := sessionSample } = .ok final ∧
          final.Delivers (events.filterMap LineEvent.sent) := by
  intro claimed
  have small : 2 ^ 24 < readLimit := by
    rw [readLimit_eq]
    decide
  have packet := Line.zeros_packet small
  obtain ⟨events, final, only, sent, ran, lost⟩ :=
    @Line.oversize_lost _ _ sessionSampleCoder sessionSample _ packet
      Line.zeros_long rfl rfl
  obtain ⟨other, ran', delivers⟩ := claimed Line.silent events (by
    intro msg member
    rw [only msg member]
    exact packet)
  rw [ran] at ran'
  cases ran'
  rw [sent] at delivers
  exact lost delivers

end Aecmio
