import Mathlib

/-!
# Readers in lockstep with writers

Two ends are joined by two byte streams.  An end turns packets into bytes and
reads what arrives in pieces whose size it names beforehand.  When the reader
of one end and the writer of the other pass through the same half states, the
bytes in flight are always the rest of the frames of the packets in flight,
whatever the interleaving.
-/

namespace Lockstep

/-- One end of a connection. -/
structure Endpoint (End Packet Result Error Byte : Type) where
  write : End → Packet → Except Error (List Byte × End)
  need : End → Nat
  feed : End → List Byte → Except Error (Option Result × End)

inductive Side where
  | near
  | far
deriving DecidableEq, Repr

def Side.other : Side → Side
  | .near => .far
  | .far => .near

@[simp] theorem Side.other_other (side : Side) : side.other.other = side := by
  cases side <;> rfl

@[simp] theorem Side.other_ne (side : Side) : side.other ≠ side := by
  cases side <;> decide

/-- Both ends, and for each side the bytes it wrote that are not read yet,
the packets it sent with their frames, and what was recovered from them. -/
structure Connection (End Packet Result Byte : Type) where
  ends : Side → End
  wire : Side → List Byte
  sent : Side → List (Packet × List Byte)
  got : Side → List Result

/-- A side writes a packet, or its peer reads the next piece of what the side
wrote. -/
inductive Event (Packet : Type) where
  | write (side : Side) (packet : Packet)
  | read (side : Side)

variable {End Packet Result Error Byte Half : Type}

namespace Connection

/-- The connection before anything is written. -/
def opened (near far : End) : Connection End Packet Result Byte where
  ends
    | .near => near
    | .far => far
  wire _ := []
  sent _ := []
  got _ := []

def wrote (connection : Connection End Packet Result Byte) (side : Side)
    (packet : Packet) (frame : List Byte) (changed : End) :
    Connection End Packet Result Byte :=
  { connection with
    ends := Function.update connection.ends side changed
    wire := Function.update connection.wire side
      (connection.wire side ++ frame)
    sent := Function.update connection.sent side
      (connection.sent side ++ [(packet, frame)]) }

def took (connection : Connection End Packet Result Byte) (side : Side)
    (size : Nat) (outcome : Option Result) (changed : End) :
    Connection End Packet Result Byte :=
  { connection with
    ends := Function.update connection.ends side.other changed
    wire := Function.update connection.wire side
      ((connection.wire side).drop size)
    got := Function.update connection.got side
      (connection.got side ++ outcome.toList) }

/-- A read that asks for more bytes than have arrived waits. -/
def step (endpoint : Endpoint End Packet Result Error Byte)
    (connection : Connection End Packet Result Byte) :
    Event Packet → Except Error (Connection End Packet Result Byte)
  | .write side packet => do
      let (frame, changed) ← endpoint.write (connection.ends side) packet
      return connection.wrote side packet frame changed
  | .read side =>
      let size := endpoint.need (connection.ends side.other)
      if (connection.wire side).length < size then return connection
      else do
        let (outcome, changed) ← endpoint.feed (connection.ends side.other)
          ((connection.wire side).take size)
        return connection.took side size outcome changed

end Connection

/-- The two halves of an end and how they move: `emit` is the writing half as
a machine of its own, and the reading half is either between two frames,
`Idle`, or `Within` one, of which a front has been read. -/
structure Mirroring (endpoint : Endpoint End Packet Result Error Byte)
    (valid : Packet → Prop) (expected : Packet → Result) (Half : Type) where
  emit : Half → Packet → List Byte × Half
  egress : End → Half
  Idle : End → Half → Prop
  Within : End → List Byte → List Byte → Result → Half → Prop
  idle_need : ∀ {here half}, Idle here half → 0 < endpoint.need here
  write_ok : ∀ here {packet}, valid packet → ∃ changed,
    endpoint.write here packet = .ok ((emit (egress here) packet).1, changed) ∧
      egress changed = (emit (egress here) packet).2 ∧
      (∀ half, Idle here half → Idle changed half) ∧
      ∀ front bytes result half, Within here front bytes result half →
        Within changed front bytes result half
  start : ∀ {here half packet}, Idle here half → valid packet →
    Within here [] (emit half packet).1 (expected packet) (emit half packet).2
  feed_ok : ∀ {here front bytes result half},
    Within here front bytes result half →
      endpoint.need here ≤ bytes.length ∧ ∃ outcome changed,
        endpoint.feed here (bytes.take (endpoint.need here)) =
          .ok (outcome, changed) ∧
        egress changed = egress here ∧
        ((outcome = none ∧
            Within changed (front ++ bytes.take (endpoint.need here))
              (bytes.drop (endpoint.need here)) result half) ∨
          (outcome = some result ∧ bytes.length = endpoint.need here ∧
            Idle changed half))

namespace Mirroring

variable {endpoint : Endpoint End Packet Result Error Byte}
  {valid : Packet → Prop} {expected : Packet → Result}

/-- The packets with their frames take the writing half from one state to the
other. -/
inductive Emits (mirroring : Mirroring endpoint valid expected Half) :
    Half → List (Packet × List Byte) → Half → Prop
  | nil (half : Half) : Emits mirroring half [] half
  | cons {half target : Half} {packet : Packet}
      {rest : List (Packet × List Byte)} (isValid : valid packet)
      (others : Emits mirroring (mirroring.emit half packet).2 rest target) :
      Emits mirroring half ((packet, (mirroring.emit half packet).1) :: rest)
        target

/-- The bytes in flight towards a reader, for the packets in flight. -/
inductive Flight (mirroring : Mirroring endpoint valid expected Half)
    (reader : End) : List Byte → List (Packet × List Byte) → Half → Prop
  | idle {half target : Half} {pending : List (Packet × List Byte)}
      (isIdle : mirroring.Idle reader half)
      (emits : mirroring.Emits half pending target) :
      Flight mirroring reader (pending.map Prod.snd).flatten pending target
  | within {half target : Half} {packet : Packet} {front bytes : List Byte}
      {rest : List (Packet × List Byte)}
      (inside : mirroring.Within reader front bytes (expected packet) half)
      (emits : mirroring.Emits half rest target) :
      Flight mirroring reader (bytes ++ (rest.map Prod.snd).flatten)
        ((packet, front ++ bytes) :: rest) target

variable {mirroring : Mirroring endpoint valid expected Half}
  {half target : Half} {pending : List (Packet × List Byte)} {packet : Packet}
  {reader : End} {wire : List Byte}

theorem Emits.concat (emits : mirroring.Emits half pending target)
    (isValid : valid packet) :
    mirroring.Emits half
      (pending ++ [(packet, (mirroring.emit target packet).1)])
      (mirroring.emit target packet).2 := by
  induction emits with
  | nil half => exact .cons isValid (.nil _)
  | cons first others induction => exact .cons first induction

theorem Flight.concat (flight : mirroring.Flight reader wire pending target)
    (isValid : valid packet) :
    mirroring.Flight reader (wire ++ (mirroring.emit target packet).1)
      (pending ++ [(packet, (mirroring.emit target packet).1)])
      (mirroring.emit target packet).2 := by
  cases flight with
  | idle isIdle emits =>
      have longer := Flight.idle isIdle (emits.concat isValid)
      simpa using longer
  | within inside emits =>
      have longer := Flight.within inside (emits.concat isValid)
      simpa using longer

/-- An end that writes is still in step as a reader. -/
theorem Flight.congr {changed : End}
    (flight : mirroring.Flight reader wire pending target)
    (idle : ∀ half, mirroring.Idle reader half → mirroring.Idle changed half)
    (within : ∀ front bytes result half,
      mirroring.Within reader front bytes result half →
        mirroring.Within changed front bytes result half) :
    mirroring.Flight changed wire pending target := by
  cases flight with
  | idle isIdle emits => exact .idle (idle _ isIdle) emits
  | within inside emits => exact .within (within _ _ _ _ inside) emits

/-- The next piece of a frame. -/
theorem within_feed {front bytes tail : List Byte}
    {rest : List (Packet × List Byte)}
    (inside : mirroring.Within reader front bytes (expected packet) half)
    (emits : mirroring.Emits half rest target)
    (follows : tail = (rest.map Prod.snd).flatten) :
    endpoint.need reader ≤ (bytes ++ tail).length ∧ ∃ outcome changed,
      endpoint.feed reader ((bytes ++ tail).take (endpoint.need reader)) =
        .ok (outcome, changed) ∧
      mirroring.egress changed = mirroring.egress reader ∧
      ((outcome = none ∧
          mirroring.Flight changed
            ((bytes ++ tail).drop (endpoint.need reader))
            ((packet, front ++ bytes) :: rest) target) ∨
        (outcome = some (expected packet) ∧
          mirroring.Flight changed
            ((bytes ++ tail).drop (endpoint.need reader)) rest target)) := by
  obtain ⟨enough, outcome, changed, fed, kept, reached⟩ :=
    mirroring.feed_ok inside
  have fore : (bytes ++ tail).take (endpoint.need reader) =
      bytes.take (endpoint.need reader) :=
    List.take_append_of_le_length enough
  have back : (bytes ++ tail).drop (endpoint.need reader) =
      bytes.drop (endpoint.need reader) ++ tail :=
    List.drop_append_of_le_length enough
  constructor
  · simp only [List.length_append]
    omega
  · refine ⟨outcome, changed, ?_, kept, ?_⟩
    · rw [fore]
      exact fed
    · rw [back, follows]
      rcases reached with ⟨more, deeper⟩ | ⟨complete, exact_, isIdle⟩
      · left
        have later := Flight.within deeper emits
        rw [List.append_assoc, List.take_append_drop] at later
        exact ⟨more, later⟩
      · right
        have nothing : bytes.drop (endpoint.need reader) = [] :=
          List.drop_of_length_le (Nat.le_of_eq exact_)
        rw [nothing, List.nil_append]
        exact ⟨complete, .idle isIdle emits⟩

/-- Either nothing is in flight and a read waits, or the next piece has
arrived and is read. -/
theorem Flight.feed (flight : mirroring.Flight reader wire pending target) :
    (pending = [] ∧ wire.length < endpoint.need reader) ∨
      (endpoint.need reader ≤ wire.length ∧ ∃ outcome changed,
        endpoint.feed reader (wire.take (endpoint.need reader)) =
          .ok (outcome, changed) ∧
        mirroring.egress changed = mirroring.egress reader ∧
        ((outcome = none ∧ mirroring.Flight changed
            (wire.drop (endpoint.need reader)) pending target) ∨
          ∃ packet frame rest, pending = (packet, frame) :: rest ∧
            outcome = some (expected packet) ∧
            mirroring.Flight changed (wire.drop (endpoint.need reader)) rest
              target)) := by
  have general : ∀ (packet : Packet) (front bytes : List Byte)
      (rest : List (Packet × List Byte)) (half : Half),
      mirroring.Within reader front bytes (expected packet) half →
      mirroring.Emits half rest target →
      wire = bytes ++ (rest.map Prod.snd).flatten →
      pending = (packet, front ++ bytes) :: rest →
      endpoint.need reader ≤ wire.length ∧ ∃ outcome changed,
        endpoint.feed reader (wire.take (endpoint.need reader)) =
          .ok (outcome, changed) ∧
        mirroring.egress changed = mirroring.egress reader ∧
        ((outcome = none ∧ mirroring.Flight changed
            (wire.drop (endpoint.need reader)) pending target) ∨
          ∃ packet frame rest, pending = (packet, frame) :: rest ∧
            outcome = some (expected packet) ∧
            mirroring.Flight changed (wire.drop (endpoint.need reader)) rest
              target) := by
    intro packet front bytes rest half inside emits streamed listed
    subst streamed listed
    obtain ⟨enough, outcome, changed, fed, kept, reached⟩ :=
      within_feed inside emits rfl
    refine ⟨enough, outcome, changed, fed, kept, ?_⟩
    rcases reached with waiting | ⟨complete, later⟩
    · exact .inl waiting
    · exact .inr ⟨packet, _, rest, rfl, complete, later⟩
  cases flight with
  | idle isIdle emits =>
      cases emits with
      | nil =>
          left
          exact ⟨rfl, by simpa using mirroring.idle_need isIdle⟩
      | cons isValid others =>
          right
          apply general _ [] _ _ _ (mirroring.start isIdle isValid) others
          · simp
          · simp
  | within inside emits =>
      right
      exact general _ _ _ _ _ inside emits rfl rfl

/-! ## Both directions -/

/-- What a side sent is what was recovered from it and what is in flight. -/
def InStep (mirroring : Mirroring endpoint valid expected Half)
    (connection : Connection End Packet Result Byte) : Prop :=
  ∀ side, ∃ done pending,
    connection.sent side = done ++ pending ∧
      connection.got side = done.map (expected ∘ Prod.fst) ∧
      mirroring.Flight (connection.ends side.other) (connection.wire side)
        pending (mirroring.egress (connection.ends side))

variable {connection : Connection End Packet Result Byte}

theorem inStep_opened {near far : End}
    (outgoing : mirroring.Idle far (mirroring.egress near))
    (incoming : mirroring.Idle near (mirroring.egress far)) :
    mirroring.InStep (.opened near far) := by
  intro side
  refine ⟨[], [], rfl, rfl, ?_⟩
  cases side with
  | near => exact .idle outgoing (.nil _)
  | far => exact .idle incoming (.nil _)

theorem inStep_write (inStep : mirroring.InStep connection) (side : Side)
    (isValid : valid packet) :
    ∃ next, connection.step endpoint (.write side packet) = .ok next ∧
      mirroring.InStep next := by
  obtain ⟨changed, written, moved, idle, within⟩ :=
    mirroring.write_ok (connection.ends side) isValid
  refine ⟨connection.wrote side packet
    (mirroring.emit (mirroring.egress (connection.ends side)) packet).1
    changed, ?_, ?_⟩
  · simp only [Connection.step, written]
    rfl
  intro direction
  by_cases same : direction = side
  · subst same
    have unmoved : direction.other ≠ direction := Side.other_ne direction
    obtain ⟨done, pending, listed, recovered, flight⟩ := inStep direction
    refine ⟨done, pending ++ [(packet, (mirroring.emit
      (mirroring.egress (connection.ends direction)) packet).1)], ?_,
      recovered, ?_⟩
    · simp [Connection.wrote, listed]
    · simpa [Connection.wrote, moved, unmoved] using flight.concat isValid
  · have opposite : direction.other = side := by
      cases direction <;> cases side <;> simp_all [Side.other]
    subst opposite
    obtain ⟨done, pending, listed, recovered, flight⟩ := inStep direction
    refine ⟨done, pending, ?_, recovered, ?_⟩
    · simpa [Connection.wrote, same] using listed
    · simpa [Connection.wrote, same] using flight.congr idle within

theorem inStep_read (inStep : mirroring.InStep connection) (side : Side) :
    ∃ next, connection.step endpoint (.read side) = .ok next ∧
      mirroring.InStep next := by
  obtain ⟨done, pending, listed, recovered, flight⟩ := inStep side
  rcases flight.feed with ⟨-, short⟩ | ⟨enough, outcome, changed, fed, kept,
    reached⟩
  · refine ⟨connection, ?_, inStep⟩
    simp only [Connection.step]
    rw [if_pos short]
    rfl
  have arrived : ¬ (connection.wire side).length <
      endpoint.need (connection.ends side.other) := by omega
  refine ⟨connection.took side
    (endpoint.need (connection.ends side.other)) outcome changed, ?_, ?_⟩
  · simp only [Connection.step]
    rw [if_neg arrived, fed]
    rfl
  intro direction
  by_cases same : direction = side
  · subst same
    have unmoved : direction ≠ direction.other := (Side.other_ne direction).symm
    rcases reached with ⟨waiting, later⟩ | ⟨packet, frame, rest, next,
      complete, later⟩
    · refine ⟨done, pending, listed, ?_, ?_⟩
      · simpa [Connection.took, waiting] using recovered
      · simpa [Connection.took, unmoved] using later
    · refine ⟨done ++ [(packet, frame)], rest, ?_, ?_, ?_⟩
      · simp [Connection.took, listed, next]
      · simp [Connection.took, complete, recovered]
      · simpa [Connection.took, unmoved] using later
  · have opposite : direction = side.other := by
      cases direction <;> cases side <;> simp_all [Side.other]
    subst opposite
    obtain ⟨doneBack, pendingBack, listedBack, recoveredBack, flightBack⟩ :=
      inStep side.other
    refine ⟨doneBack, pendingBack, listedBack, ?_, ?_⟩
    · simpa [Connection.took] using recoveredBack
    · have unmoved : side ≠ side.other := (Side.other_ne side).symm
      rw [Side.other_other] at flightBack
      simpa [Connection.took, unmoved, kept] using flightBack

/-- No run fails and every run keeps both directions in step. -/
theorem run_inStep (events : List (Event Packet))
    (valid_ : ∀ side packet, Event.write side packet ∈ events → valid packet)
    (inStep : mirroring.InStep connection) :
    ∃ final, events.foldlM (Connection.step endpoint) connection = .ok final ∧
      mirroring.InStep final := by
  induction events generalizing connection with
  | nil => exact ⟨connection, rfl, inStep⟩
  | cons event events induction =>
      have one : ∃ next, connection.step endpoint event = .ok next ∧
          mirroring.InStep next := by
        cases event with
        | write side packet =>
            exact inStep_write inStep side
              (valid_ side packet List.mem_cons_self)
        | read side => exact inStep_read inStep side
      obtain ⟨next, stepped, kept⟩ := one
      obtain ⟨final, ran, held⟩ := induction
        (fun side packet member =>
          valid_ side packet (List.mem_cons_of_mem _ member)) kept
      refine ⟨final, ?_, held⟩
      rw [List.foldlM_cons, stepped]
      exact ran

end Mirroring

end Lockstep
