import Aecmio.Chain.BlockHeader
import Aecmio.Network.FrameCoder
import Aecmio.Rlp.RoundTrip

/-!
# Discovery datagrams

A datagram is a hash of what follows, a signature of what follows that, a
byte for the type and the packet in RLP.  The hash that a receiver computes is
the echo of a ping, a request or an answer; a pong carries the echo of the
ping it answers instead.
-/

namespace Aecmio

open Item RLP

abbrev Signature := FixedHash 65

/-- Signatures of libsecp256k1. -/
class Signing where
  toPublic : Secret → Public
  sign : Secret → H256 → Signature
  recover : Signature → H256 → Public

/-- A signature gives the key that it was made with away. -/
structure Signing.Recovers [Signing] (secret : Secret) : Prop where
  recover : ∀ message,
    Signing.recover (Signing.sign secret message) message =
      Signing.toPublic secret
  nonzero : Signing.toPublic secret ≠ zeroHash 64

/-- `boost::asio::ip::address`. -/
inductive IPAddress where
  | v4 (bytes : FixedHash 4)
  | v6 (bytes : FixedHash 16)
deriving DecidableEq

structure NodeIPEndpoint where
  address : IPAddress := .v4 (zeroHash 4)
  udpPort : UInt16 := 0
  tcpPort : UInt16 := 0
deriving DecidableEq

/-- `p2p::c_protocolVersion`. -/
def c_p2pProtocolVersion : UInt32 := 4

def IPAddress.toBytes : IPAddress → Bytes
  | .v4 bytes => bytes.val
  | .v6 bytes => bytes.val

namespace NodeIPEndpoint

/-- `streamRLP` with `StreamInline`. -/
def streamInline (endpoint : NodeIPEndpoint) (stream : RLPStream) :
    Except RLPError RLPStream := do
  let stream ← stream.append endpoint.address.toBytes
  let stream ← stream.appendInt endpoint.udpPort.toNat
  stream.appendInt endpoint.tcpPort.toNat

/-- `streamRLP` with `StreamList`. -/
def streamRLP (endpoint : NodeIPEndpoint) (stream : RLPStream) :
    Except RLPError RLPStream := do
  endpoint.streamInline (← stream.appendList 3)

def interpretRLP (view : Bytes) : Except RLPError NodeIPEndpoint := do
  let address ←
    if (← RLP.size (← at_ view 0)) = 4 then
      pure (.v4 (hashAt 4 (← RLP.toBytes (← at_ view 0))))
    else if (← RLP.size (← at_ view 0)) = 16 then
      pure (.v6 (hashAt 16 (← RLP.toBytes (← at_ view 0))))
    else pure (.v4 (zeroHash 4))
  let udpPort ← toInt .uint16 (← at_ view 1)
  let tcpPort ← toInt .uint16 (← at_ view 2)
  return ⟨address, UInt16.ofNat udpPort, UInt16.ofNat tcpPort⟩

end NodeIPEndpoint

/-! ## Packets -/

structure PingNode where
  version : UInt32 := 0
  source : NodeIPEndpoint
  destination : NodeIPEndpoint
deriving DecidableEq

structure Pong where
  destination : NodeIPEndpoint
deriving DecidableEq

structure FindNode where
  target : FixedHash 64
deriving DecidableEq

structure Neighbour where
  endpoint : NodeIPEndpoint
  node : Public
deriving DecidableEq

structure Neighbours where
  neighbours : List Neighbour
deriving DecidableEq

/-- `Neighbour::streamRLP`. -/
def Neighbour.streamRLP (neighbour : Neighbour) (stream : RLPStream) :
    Except RLPError RLPStream := do
  let stream ← neighbour.endpoint.streamInline (← stream.appendList 4)
  stream.append neighbour.node.val

/-- The constructor of `Neighbour` from RLP. -/
def Neighbour.ofRLP (view : Bytes) : Except RLPError Neighbour := do
  let endpoint ← NodeIPEndpoint.interpretRLP view
  return ⟨endpoint, FixedHash.ofBytes 64 (← RLP.toBytes (← at_ view 3))⟩

inductive DiscoveryPacket where
  | pingNode (packet : PingNode)
  | pong (packet : Pong)
  | findNode (packet : FindNode)
  | neighbours (packet : Neighbours)
deriving DecidableEq

/-- `packetType`. -/
def DiscoveryPacket.packetType : DiscoveryPacket → UInt8
  | .pingNode _ => 1
  | .pong _ => 2
  | .findNode _ => 3
  | .neighbours _ => 4

/-- `DiscoveryDatagram` with the members of the class of its packet. -/
structure DiscoveryDatagram where
  sourceid : Public := zeroHash 64
  echo : H256 := zeroHash 32
  ts : UInt32 := 0
  packet : DiscoveryPacket
deriving DecidableEq

namespace DiscoveryDatagram

def streamRLP (datagram : DiscoveryDatagram) (stream : RLPStream) :
    Except RLPError RLPStream :=
  match datagram.packet with
  | .pingNode packet => do
      let stream ← stream.appendList 4
      let stream ← stream.appendInt c_p2pProtocolVersion.toNat
      let stream ← packet.source.streamRLP stream
      let stream ← packet.destination.streamRLP stream
      stream.appendInt datagram.ts.toNat
  | .pong packet => do
      let stream ← stream.appendList 3
      let stream ← packet.destination.streamRLP stream
      let stream ← stream.append datagram.echo.val
      stream.appendInt datagram.ts.toNat
  | .findNode packet => do
      let stream ← stream.appendList 2
      let stream ← stream.append packet.target.val
      stream.appendInt datagram.ts.toNat
  | .neighbours packet => do
      let stream ← stream.appendList 2
      let stream ← stream.appendList packet.neighbours.length
      let stream ← packet.neighbours.foldlM
        (fun stream neighbour => neighbour.streamRLP stream) stream
      stream.appendInt datagram.ts.toNat

/-- `RLP::AllowNonCanon | RLP::ThrowOnFail`. -/
def reading : Strictness := { throwOnFail := true, allowNonCanon := true }

/-- The `interpretRLP` of the classes of packets: the packet, the time and the
echo, which only a pong brings with it. -/
def interpretRLP (packetType : UInt8) (echo : H256) (content : Bytes) :
    Except RLPError (Option (DiscoveryPacket × UInt32 × H256)) := do
  if packetType = 1 then
    let r ← construct content reading
    let version ← toInt .uint32 (← at_ r 0)
    let source ← NodeIPEndpoint.interpretRLP (← at_ r 1)
    let destination ← NodeIPEndpoint.interpretRLP (← at_ r 2)
    let ts ← toInt .uint32 (← at_ r 3)
    return some (.pingNode ⟨UInt32.ofNat version, source, destination⟩,
      UInt32.ofNat ts, echo)
  else if packetType = 2 then
    let r ← construct content reading
    let destination ← NodeIPEndpoint.interpretRLP (← at_ r 0)
    let echo ← toHash 32 (← at_ r 1)
    let ts ← toInt .uint32 (← at_ r 2)
    return some (.pong ⟨destination⟩, UInt32.ofNat ts, echo)
  else if packetType = 3 then
    let r ← construct content reading
    let target ← toHash 64 (← at_ r 0)
    let ts ← toInt .uint32 (← at_ r 1)
    return some (.findNode ⟨target⟩, UInt32.ofNat ts, echo)
  else if packetType = 4 then
    let r ← construct content reading
    let neighbours ← (← iterate (← at_ r 0)).mapM Neighbour.ofRLP
    let ts ← toInt .uint32 (← at_ r 1)
    return some (.neighbours ⟨neighbours⟩, UInt32.ofNat ts, echo)
  else return none

variable [Hashing] [Signing]

/-- `RLPXDatagramFace::sign`: the bytes of the datagram. -/
def sign (secret : Secret) (datagram : DiscoveryDatagram) :
    Except RLPError Bytes := do
  let rlpxstream ← RLPStream.appendRaw [datagram.packet.packetType] 1 {}
  let rlpxstream ← datagram.streamRLP rlpxstream
  let rlpx ← rlpxstream.result
  let sig := Signing.sign secret (sha3 rlpx)
  let signedRLPx := sig.val ++ rlpx
  return (sha3 signedRLPx).val ++ signedRLPx

/-- What is decoded from a datagram; nothing if it is refused. -/
def interpretUDP (packet : Bytes) :
    Except RLPError (Option DiscoveryDatagram) := do
  if packet.length < 32 + 65 + 1 + 3 then return none
  let hashedBytes := cropped packet 32 (packet.length - 32)
  let signedBytes := cropped hashedBytes 65 (hashedBytes.length - 65)
  let signatureBytes := cropped packet 32 65
  let bodyBytes := croppedFrom packet (32 + 65 + 1)
  let echo := sha3 hashedBytes
  if cropped packet 0 32 ≠ echo.val then return none
  let sourceid := Signing.recover (hashAt 65 signatureBytes) (sha3 signedBytes)
  if sourceid = zeroHash 64 then return none
  match ← interpretRLP (signedBytes.getD 0 0) echo bodyBytes with
  | none => return none
  | some (packet, ts, echo) => return some { sourceid, echo, ts, packet }

/-- The answer of `NodeTable::onReceived` to a ping, which goes to `source`. -/
def answer (ping : DiscoveryDatagram) (source : NodeIPEndpoint) (ts : UInt32) :
    DiscoveryDatagram where
  echo := ping.echo
  ts
  packet := .pong ⟨source⟩

end DiscoveryDatagram

/-! ## What is written -/

section

variable {content : Bytes}

theorem appendInt_nat {value : Nat} (small : value < 2 ^ 32)
    (stream : RLPStream) :
    stream.appendInt value = stream.append (RLPStream.intContent value) := by
  have digits : bytesRequired value ≤ 4 := by
    rw [bytesRequired_le_iff]
    exact small
  have length : (RLPStream.intContent value).length < sizeTRange := by
    rw [sizeTRange_eq, RLPStream.intContent, length_toBigEndian]
    omega
  rw [RLPStream.appendInt_eq stream (by omega), RLPStream.append_eq length]

theorem size_encodeData (small : content.length < readLimit) :
    RLP.size (encodeData content) = .ok content.length := by
  have isData := isData_encodeData [] small
  rw [List.append_nil] at isData
  rw [RLP.size, isData, if_pos rfl, length_encodeData small]

theorem bind_ok {ε α : Type} (result : Except ε α) :
    (result >>= fun value => .ok value) = result := by
  cases result <;> rfl

end

namespace NodeIPEndpoint

def scripts (endpoint : NodeIPEndpoint) : List Script :=
  [.data endpoint.address.toBytes,
    .data (RLPStream.intContent endpoint.udpPort.toNat),
    .data (RLPStream.intContent endpoint.tcpPort.toNat)]

theorem streamInline_eq (endpoint : NodeIPEndpoint) (stream : RLPStream) :
    endpoint.streamInline stream = Script.writeAll endpoint.scripts stream := by
  have udpPort := endpoint.udpPort.toNat_lt
  have tcpPort := endpoint.tcpPort.toNat_lt
  simp only [streamInline, appendInt_nat (show endpoint.udpPort.toNat < 2 ^ 32 by
    omega), appendInt_nat (show endpoint.tcpPort.toNat < 2 ^ 32 by omega),
    scripts, Script.writeAll, Script.write, bind_ok]

theorem streamRLP_eq (endpoint : NodeIPEndpoint) (stream : RLPStream) :
    endpoint.streamRLP stream =
      (Script.counted endpoint.scripts).write stream := by
  simp only [streamRLP, streamInline_eq, Script.write]
  rfl

end NodeIPEndpoint

theorem writeAll_append (front back : List Script) (stream : RLPStream) :
    Script.writeAll (front ++ back) stream =
      (Script.writeAll front stream >>= Script.writeAll back) := by
  induction front generalizing stream with
  | nil => rfl
  | cons script front induction =>
      rw [List.cons_append, Script.writeAll, Script.writeAll]
      cases script.write stream with
      | error error => rfl
      | ok stream => exact induction stream

def Neighbour.script (neighbour : Neighbour) : Script :=
  .counted (neighbour.endpoint.scripts ++ [.data neighbour.node.val])

theorem Neighbour.streamRLP_eq (neighbour : Neighbour) (stream : RLPStream) :
    neighbour.streamRLP stream = neighbour.script.write stream := by
  have length : (neighbour.endpoint.scripts ++
      [Script.data neighbour.node.val]).length = 4 := rfl
  simp only [streamRLP, NodeIPEndpoint.streamInline_eq, script, Script.write,
    length, writeAll_append, Script.writeAll, bind_ok]

theorem neighbours_streamRLP (neighbours : List Neighbour)
    (stream : RLPStream) :
    neighbours.foldlM (fun stream neighbour => neighbour.streamRLP stream)
        stream =
      Script.writeAll (neighbours.map Neighbour.script) stream := by
  induction neighbours generalizing stream with
  | nil => rfl
  | cons neighbour neighbours induction =>
      rw [List.foldlM_cons, Neighbour.streamRLP_eq, List.map_cons,
        Script.writeAll]
      cases neighbour.script.write stream with
      | error error => rfl
      | ok stream => exact induction stream

namespace DiscoveryDatagram

/-- The list that stands for a datagram. -/
def script (datagram : DiscoveryDatagram) : Script :=
  .counted (match datagram.packet with
    | .pingNode packet => [
        .data (RLPStream.intContent c_p2pProtocolVersion.toNat),
        .counted packet.source.scripts, .counted packet.destination.scripts,
        .data (RLPStream.intContent datagram.ts.toNat)]
    | .pong packet => [.counted packet.destination.scripts,
        .data datagram.echo.val,
        .data (RLPStream.intContent datagram.ts.toNat)]
    | .findNode packet => [.data packet.target.val,
        .data (RLPStream.intContent datagram.ts.toNat)]
    | .neighbours packet => [
        .counted (packet.neighbours.map Neighbour.script),
        .data (RLPStream.intContent datagram.ts.toNat)])

theorem streamRLP_eq (datagram : DiscoveryDatagram) (stream : RLPStream) :
    datagram.streamRLP stream = datagram.script.write stream := by
  have ts := appendInt_nat datagram.ts.toNat_lt
  have version := appendInt_nat c_p2pProtocolVersion.toNat_lt
  unfold streamRLP script
  cases datagram.packet with
  | pingNode packet =>
      simp only [ts, version, NodeIPEndpoint.streamRLP_eq, Script.write,
        Script.writeAll, List.length_cons, List.length_nil, bind_ok]
  | pong packet =>
      simp only [ts, NodeIPEndpoint.streamRLP_eq, Script.write,
        Script.writeAll, List.length_cons, List.length_nil, bind_ok]
  | findNode packet =>
      simp only [ts, Script.write, Script.writeAll, List.length_cons,
        List.length_nil, bind_ok]
  | neighbours packet =>
      simp only [ts, neighbours_streamRLP, Script.write, Script.writeAll,
        List.length_cons, List.length_nil, List.length_map, bind_ok,
        bind_assoc]

end DiscoveryDatagram

/-! ## What is read -/

theorem length_encodeData_le {content : Bytes} {size : Nat}
    (short : content.length ≤ size) (small : size < 2 ^ 32) :
    (encodeData content).length ≤ size + 9 := by
  have bound := encodeData_length_le (show content.length < 2 ^ 64 by omega)
  omega

theorem length_intContent_le {value size : Nat} (fits : value < 256 ^ size) :
    (RLPStream.intContent value).length ≤ size := by
  rw [RLPStream.intContent, length_toBigEndian, bytesRequired_le_iff]
  exact fits

theorem length_encodeAll_le {items : List Item} {bound : Nat}
    (each : ∀ item ∈ items, item.encode.length ≤ bound) :
    (encodeAll items).length ≤ items.length * bound := by
  induction items with
  | nil => simp [encodeAll]
  | cons item items induction =>
      have first := each item List.mem_cons_self
      have others := induction fun other member =>
        each other (List.mem_cons_of_mem _ member)
      rw [encodeAll, List.length_append, List.length_cons, Nat.add_mul]
      omega

/-- A field of a canonical list, by what stands there. -/
theorem at_encode {items : List Item} {position : Nat} {item : Item}
    (small : (encodeAll items).length < readLimit)
    (found : items[position]? = some item) :
    at_ (Item.list items).encode position = .ok item.encode := by
  obtain ⟨inRange, same⟩ := List.getElem?_eq_some_iff.mp found
  rw [at_encode_list inRange small, same]

theorem small_of_le {length bound : Nat} (short : length ≤ bound)
    (low : bound < 2 ^ 63) : length < readLimit := by
  rw [readLimit_eq]
  omega

namespace NodeIPEndpoint

variable (endpoint : NodeIPEndpoint)

theorem length_address : endpoint.address.toBytes.length ≤ 16 := by
  cases endpoint.address with
  | v4 bytes =>
      rw [IPAddress.toBytes, bytes.property]
      decide
  | v6 bytes =>
      rw [IPAddress.toBytes, bytes.property]

theorem length_scripts :
    (encodeAll (Script.itemAll endpoint.scripts)).length ≤ 47 := by
  have address := length_encodeData_le endpoint.length_address (by decide)
  have udpPort := length_encodeData_le (length_intContent_le
    (show _ < 256 ^ 2 from endpoint.udpPort.toNat_lt)) (by decide)
  have tcpPort := length_encodeData_le (length_intContent_le
    (show _ < 256 ^ 2 from endpoint.tcpPort.toNat_lt)) (by decide)
  simp only [scripts, Script.itemAll, Script.item, encodeAll, encode,
    List.length_append, List.append_nil]
  omega

/-- An endpoint is read from a list that starts with it. -/
theorem interpretRLP_encode (rest : List Item)
    (small : (encodeAll (Script.itemAll endpoint.scripts ++ rest)).length <
      readLimit) :
    interpretRLP (Item.list (Script.itemAll endpoint.scripts ++ rest)).encode =
      .ok endpoint := by
  have address := small_of_le endpoint.length_address (by decide)
  have first := @at_encode _ 0 _ small rfl
  have udpPort := @at_encode _ 1 _ small rfl
  have tcpPort := @at_encode _ 2 _ small rfl
  simp only [Script.item, encode] at first udpPort tcpPort
  have udp := @toInt_intContent .uint16 _
    (show endpoint.udpPort.toNat < 256 ^ 2 from endpoint.udpPort.toNat_lt)
  have tcp := @toInt_intContent .uint16 _
    (show endpoint.tcpPort.toNat < 256 ^ 2 from endpoint.tcpPort.toNat_lt)
  have ports : ∀ port : UInt16, UInt16.ofNat port.toNat = port :=
    fun port => UInt16.ofNat_toNat
  simp only [interpretRLP, encode, first, udpPort, tcpPort, bind, Except.bind,
    size_encodeData address, toBytes_encodeData .laissezFaire address, udp,
    tcp, pure, Except.pure, ports]
  obtain ⟨host, udpPort, tcpPort⟩ := endpoint
  cases host with
  | v4 bytes =>
      simp only [IPAddress.toBytes, bytes.property, if_true, hashAt_val]
  | v6 bytes =>
      have different : ¬ (16 = 4) := by decide
      simp only [IPAddress.toBytes, bytes.property, if_neg different, if_true,
        hashAt_val]

end NodeIPEndpoint

namespace Neighbour

variable (neighbour : Neighbour)

theorem item_script : neighbour.script.item =
    .list (Script.itemAll neighbour.endpoint.scripts ++
      [.data neighbour.node.val]) := by
  rw [script, Script.item, Script.itemAll_append]
  rfl

theorem length_node :
    (encodeData neighbour.node.val).length ≤ 73 :=
  length_encodeData_le (Nat.le_of_eq neighbour.node.property) (by decide)

theorem length_fields :
    (encodeAll (Script.itemAll neighbour.endpoint.scripts ++
      [.data neighbour.node.val])).length ≤ 120 := by
  have endpoint := neighbour.endpoint.length_scripts
  have node := neighbour.length_node
  rw [encodeAll_append, List.length_append]
  simp only [encodeAll, encode, List.append_nil]
  omega

theorem length_encode : neighbour.script.item.encode.length ≤ 129 := by
  have fields := neighbour.length_fields
  have whole := encodeList_length_le (show (encodeAll
    (Script.itemAll neighbour.endpoint.scripts ++
      [.data neighbour.node.val])).length < 2 ^ 64 by omega)
  rw [item_script, encode]
  omega

theorem ofRLP_encode : ofRLP neighbour.script.item.encode = .ok neighbour := by
  have small := small_of_le neighbour.length_fields (by decide)
  have node := @at_encode _ 3 _ small rfl
  have content := small_of_le (Nat.le_of_eq neighbour.node.property) (by decide)
  have endpoint := neighbour.endpoint.interpretRLP_encode _ small
  rw [item_script, ofRLP, endpoint, node]
  simp only [bind, Except.bind, encode, toBytes_encodeData .laissezFaire content,
    FixedHash.ofBytes_val]
  rfl

theorem mapM_ofRLP (neighbours : List Neighbour) :
    (neighbours.map fun neighbour => neighbour.script.item.encode).mapM
      ofRLP = .ok neighbours := by
  induction neighbours with
  | nil => rfl
  | cons neighbour neighbours induction =>
      rw [List.map_cons, List.mapM_cons, ofRLP_encode, induction]
      rfl

end Neighbour

/-- A packet as its receiver has it. -/
def DiscoveryPacket.received : DiscoveryPacket → DiscoveryPacket
  | .pingNode packet =>
      .pingNode { packet with version := c_p2pProtocolVersion }
  | packet => packet

/-- The number of neighbours that a `std::vector` can hold. -/
def DiscoveryPacket.Fits : DiscoveryPacket → Prop
  | .neighbours packet => packet.neighbours.length * 112 < 2 ^ 63
  | _ => True

namespace DiscoveryDatagram

variable (datagram : DiscoveryDatagram)

/-- The echo of a datagram whose hash is known. -/
def receivedEcho (hash : H256) : H256 :=
  match datagram.packet with
  | .pong _ => datagram.echo
  | _ => hash

theorem length_ts (ts : UInt32) :
    (encodeData (RLPStream.intContent ts.toNat)).length ≤ 13 :=
  length_encodeData_le (length_intContent_le
    (show _ < 256 ^ 4 from ts.toNat_lt)) (by decide)

theorem length_endpoint (endpoint : NodeIPEndpoint) :
    (encodeList (encodeAll (Script.itemAll endpoint.scripts))).length ≤ 56 := by
  have fields := endpoint.length_scripts
  have whole := encodeList_length_le
    (show (encodeAll (Script.itemAll endpoint.scripts)).length < 2 ^ 64 by
      omega)
  omega

theorem length_hash {size : Nat} (hash : FixedHash size)
    (small : size < 2 ^ 32) : (encodeData hash.val).length ≤ size + 9 :=
  length_encodeData_le (Nat.le_of_eq hash.property) small

theorem readUInt32 (value : UInt32) :
    toInt .uint32 (encodeData (RLPStream.intContent value.toNat)) =
      .ok value.toNat :=
  toInt_intContent (show value.toNat < 256 ^ 4 from value.toNat_lt)

theorem itemAll_map (neighbours : List Neighbour) :
    Script.itemAll (neighbours.map Neighbour.script) =
      neighbours.map fun neighbour => neighbour.script.item := by
  induction neighbours with
  | nil => rfl
  | cons neighbour neighbours induction =>
      rw [List.map_cons, Script.itemAll, induction, List.map_cons]

theorem length_neighbours {neighbours : List Neighbour}
    (fits : neighbours.length * 112 < 2 ^ 63) :
    (encodeAll (Script.itemAll (neighbours.map Neighbour.script))).length <
      2 ^ 64 - 2 ^ 60 := by
  have bound := @length_encodeAll_le
    (neighbours.map fun neighbour => neighbour.script.item) 129 (by
      intro item member
      obtain ⟨neighbour, -, rfl⟩ := List.mem_map.mp member
      exact neighbour.length_encode)
  rw [itemAll_map]
  rw [List.length_map] at bound
  omega

theorem interpretRLP_endpoint (endpoint : NodeIPEndpoint) :
    NodeIPEndpoint.interpretRLP
        (Item.list (Script.itemAll endpoint.scripts)).encode =
      .ok endpoint := by
  have fields := endpoint.length_scripts
  have read := endpoint.interpretRLP_encode [] (by
    rw [List.append_nil]
    exact small_of_le fields (by decide))
  rw [List.append_nil] at read
  exact read

section

variable (ts : UInt32) (hash : H256)

theorem length_pingNode (packet : PingNode) : (encodeAll [
    .data (RLPStream.intContent c_p2pProtocolVersion.toNat),
    .list (Script.itemAll packet.source.scripts),
    .list (Script.itemAll packet.destination.scripts),
    .data (RLPStream.intContent ts.toNat)]).length ≤ 138 := by
  have version := length_ts c_p2pProtocolVersion
  have source := length_endpoint packet.source
  have destination := length_endpoint packet.destination
  have time := length_ts ts
  simp only [encodeAll, encode, List.length_append, List.append_nil]
  omega

theorem length_pong (packet : Pong) (echo : H256) : (encodeAll [
    .list (Script.itemAll packet.destination.scripts), .data echo.val,
    .data (RLPStream.intContent ts.toNat)]).length ≤ 110 := by
  have destination := length_endpoint packet.destination
  have answered := length_hash echo (by decide)
  have time := length_ts ts
  simp only [encodeAll, encode, List.length_append, List.append_nil]
  omega

theorem length_findNode (packet : FindNode) : (encodeAll [
    .data packet.target.val,
    .data (RLPStream.intContent ts.toNat)]).length ≤ 86 := by
  have target := length_hash packet.target (by decide)
  have time := length_ts ts
  simp only [encodeAll, encode, List.length_append, List.append_nil]
  omega

theorem length_list (packet : Neighbours)
    (fits : packet.neighbours.length * 112 < 2 ^ 63) : (encodeAll [
    .list (Script.itemAll (packet.neighbours.map Neighbour.script)),
    .data (RLPStream.intContent ts.toNat)]).length < 2 ^ 64 - 2 ^ 60 + 22 := by
  have nodes := length_neighbours fits
  have listed := encodeList_length_le (show (encodeAll (Script.itemAll
    (packet.neighbours.map Neighbour.script))).length < 2 ^ 64 by omega)
  have time := length_ts ts
  simp only [encodeAll, encode, List.length_append, List.append_nil]
  omega

theorem interpretRLP_pingNode (packet : PingNode) :
    interpretRLP 1 hash (Item.list [
        .data (RLPStream.intContent c_p2pProtocolVersion.toNat),
        .list (Script.itemAll packet.source.scripts),
        .list (Script.itemAll packet.destination.scripts),
        .data (RLPStream.intContent ts.toNat)]).encode =
      .ok (some (.pingNode { packet with version := c_p2pProtocolVersion },
        ts, hash)) := by
  have small := small_of_le (length_pingNode ts packet) (by decide)
  have ports : UInt32.ofNat ts.toNat = ts := UInt32.ofNat_toNat
  simp only [interpretRLP, if_true, construct, reading, bind, Except.bind,
    Bool.false_eq_true, if_false, pure, Except.pure,
    @at_encode _ 0 _ small rfl, @at_encode _ 1 _ small rfl,
    @at_encode _ 2 _ small rfl, @at_encode _ 3 _ small rfl,
    interpretRLP_endpoint]
  simp only [encode, readUInt32, ports]
  rfl

theorem interpretRLP_pong (packet : Pong) (echo : H256) :
    interpretRLP 2 hash (Item.list [
        .list (Script.itemAll packet.destination.scripts), .data echo.val,
        .data (RLPStream.intContent ts.toNat)]).encode =
      .ok (some (.pong packet, ts, echo)) := by
  have small := small_of_le (length_pong ts packet echo) (by decide)
  have ports : UInt32.ofNat ts.toNat = ts := UInt32.ofNat_toNat
  have other : ¬ ((2 : UInt8) = 1) := by decide
  simp only [interpretRLP, if_neg other, if_true, construct, reading, bind,
    Except.bind, Bool.false_eq_true, if_false, pure, Except.pure,
    @at_encode _ 0 _ small rfl, @at_encode _ 1 _ small rfl,
    @at_encode _ 2 _ small rfl, interpretRLP_endpoint]
  simp only [encode, readUInt32, ports,
    toHash_encodeData_hash echo (small_of_le (Nat.le_refl 32) (by decide))]

theorem interpretRLP_findNode (packet : FindNode) :
    interpretRLP 3 hash (Item.list [.data packet.target.val,
        .data (RLPStream.intContent ts.toNat)]).encode =
      .ok (some (.findNode packet, ts, hash)) := by
  have small := small_of_le (length_findNode ts packet) (by decide)
  have ports : UInt32.ofNat ts.toNat = ts := UInt32.ofNat_toNat
  have first : ¬ ((3 : UInt8) = 1) := by decide
  have second : ¬ ((3 : UInt8) = 2) := by decide
  simp only [interpretRLP, if_neg first, if_neg second, if_true, construct,
    reading, bind, Except.bind, Bool.false_eq_true, if_false, pure,
    Except.pure, @at_encode _ 0 _ small rfl, @at_encode _ 1 _ small rfl]
  simp only [encode, readUInt32, ports, toHash_encodeData_hash packet.target
    (small_of_le (Nat.le_refl 64) (by decide))]

theorem interpretRLP_neighbours (packet : Neighbours)
    (fits : packet.neighbours.length * 112 < 2 ^ 63) :
    interpretRLP 4 hash (Item.list [
        .list (Script.itemAll (packet.neighbours.map Neighbour.script)),
        .data (RLPStream.intContent ts.toNat)]).encode =
      .ok (some (.neighbours packet, ts, hash)) := by
  have nodes := length_neighbours fits
  have whole := length_list ts packet fits
  have inside : (encodeAll (Script.itemAll
      (packet.neighbours.map Neighbour.script))).length < readLimit := by
    rw [readLimit_eq]
    omega
  have small : (encodeAll [
      .list (Script.itemAll (packet.neighbours.map Neighbour.script)),
      .data (RLPStream.intContent ts.toNat)]).length < readLimit := by
    rw [readLimit_eq]
    omega
  have ports : UInt32.ofNat ts.toNat = ts := UInt32.ofNat_toNat
  have first : ¬ ((4 : UInt8) = 1) := by decide
  have second : ¬ ((4 : UInt8) = 2) := by decide
  have third : ¬ ((4 : UInt8) = 3) := by decide
  have read := Neighbour.mapM_ofRLP packet.neighbours
  simp only [interpretRLP, if_neg first, if_neg second, if_neg third, if_true,
    construct, reading, bind, Except.bind, Bool.false_eq_true, if_false, pure,
    Except.pure, @at_encode _ 0 _ small rfl, @at_encode _ 1 _ small rfl,
    iterate_encode_list inside]
  simp only [encode, readUInt32, ports, itemAll_map, List.map_map,
    Function.comp_def, read]

end

/-- Every packet is read as it was written. -/
theorem interpretRLP_script (fits : datagram.packet.Fits) (hash : H256) :
    interpretRLP datagram.packet.packetType hash datagram.script.item.encode =
      .ok (some (datagram.packet.received, datagram.ts,
        datagram.receivedEcho hash)) := by
  obtain ⟨sourceid, echo, ts, packet⟩ := datagram
  cases packet with
  | pingNode packet => exact interpretRLP_pingNode ts hash packet
  | pong packet => exact interpretRLP_pong ts hash packet echo
  | findNode packet => exact interpretRLP_findNode ts hash packet
  | neighbours packet => exact interpretRLP_neighbours ts hash packet fits

theorem length_items {items : List Item} (two : 2 ≤ items.length)
    (small : (encodeAll items).length < 2 ^ 64 - 2 ^ 60 + 22) :
    3 ≤ (Item.list items).encode.length ∧
      (Item.list items).encode.length < 2 ^ 64 - 2 ^ 59 := by
  have counted := length_le_encodeAll items
  have longer := length_lt_encodeList (encodeAll items)
  have bound := encodeList_length_le
    (show (encodeAll items).length < 2 ^ 64 by omega)
  rw [encode]
  omega

theorem length_script (fits : datagram.packet.Fits) :
    3 ≤ datagram.script.item.encode.length ∧
      datagram.script.item.encode.length < 2 ^ 64 - 2 ^ 59 := by
  obtain ⟨sourceid, echo, ts, packet⟩ := datagram
  cases packet with
  | pingNode packet =>
      have bound := (length_pingNode ts packet).trans_lt
        (show _ < 2 ^ 64 - 2 ^ 60 + 22 by decide)
      exact length_items (Nat.le_add_left 2 2) bound
  | pong packet =>
      have bound := (length_pong ts packet echo).trans_lt
        (show _ < 2 ^ 64 - 2 ^ 60 + 22 by decide)
      exact length_items (Nat.le_add_left 2 1) bound
  | findNode packet =>
      have bound := (length_findNode ts packet).trans_lt
        (show _ < 2 ^ 64 - 2 ^ 60 + 22 by decide)
      exact length_items (Nat.le_refl 2) bound
  | neighbours packet =>
      have bound := length_list ts packet fits
      exact length_items (Nat.le_refl 2) bound

section

variable [Hashing] [Signing] (secret : Secret)

/-- The parts of a datagram. -/
theorem sign_eq (fits : datagram.packet.Fits) :
    datagram.sign secret = .ok (
      let rlpx := datagram.packet.packetType :: datagram.script.item.encode
      let signedRLPx := (Signing.sign secret (sha3 rlpx)).val ++ rlpx
      (sha3 signedRLPx).val ++ signedRLPx) := by
  have bound := (datagram.length_script fits).2
  have written := datagram.script.faithful
    (show _ < sizeTRange by rw [sizeTRange_eq]; omega)
    ⟨[datagram.packet.packetType], []⟩
  have start : RLPStream.appendRaw [datagram.packet.packetType] 1 {} =
      .ok ⟨[datagram.packet.packetType], []⟩ := rfl
  simp only [sign, start, bind, Except.bind, streamRLP_eq, written]
  rfl

/-- The windows of `interpretUDP` find the parts again. -/
theorem interpretUDP_eq {hash : H256} {sig : Signature} {packetType : UInt8}
    {content : Bytes} (long : 3 ≤ content.length)
    (small : content.length < 2 ^ 64 - 2 ^ 59)
    (hashed : hash = sha3 (sig.val ++ packetType :: content)) {source : Public}
    (recovered : Signing.recover sig (sha3 (packetType :: content)) = source)
    (nonzero : source ≠ zeroHash 64) {packet : DiscoveryPacket} {ts : UInt32}
    {echo : H256}
    (read : interpretRLP packetType hash content =
      .ok (some (packet, ts, echo))) :
    interpretUDP (hash.val ++ (sig.val ++ packetType :: content)) =
      .ok (some ⟨source, echo, ts, packet⟩) := by
  have hashLength := hash.property
  have sigLength := sig.property
  have total : (hash.val ++ (sig.val ++ packetType :: content)).length =
      98 + content.length := by
    simp only [List.length_append, List.length_cons, hashLength, sigLength]
    omega
  have bounded : (hash.val ++ (sig.val ++ packetType :: content)).length <
      sizeTRange - 1 := by
    rw [total, sizeTRange_eq]
    omega
  have hashedBytes : cropped (hash.val ++ (sig.val ++ packetType :: content))
      32 ((hash.val ++ (sig.val ++ packetType :: content)).length - 32) =
        sig.val ++ packetType :: content := by
    rw [cropped_eq bounded (by omega), List.drop_left' hashLength]
    apply List.take_of_length_le
    simp only [List.length_append, hashLength]
    omega
  have inner : (sig.val ++ packetType :: content).length =
      66 + content.length := by
    simp only [List.length_append, List.length_cons, sigLength]
    omega
  have innerBounded : (sig.val ++ packetType :: content).length <
      sizeTRange - 1 := by
    rw [inner, sizeTRange_eq]
    omega
  have signedBytes : cropped (sig.val ++ packetType :: content) 65
      ((sig.val ++ packetType :: content).length - 65) =
        packetType :: content := by
    rw [cropped_eq innerBounded (by omega), List.drop_left' sigLength]
    apply List.take_of_length_le
    simp only [List.length_append, List.length_cons, sigLength]
    omega
  have signatureBytes : cropped (hash.val ++ (sig.val ++ packetType :: content))
      32 65 = sig.val := by
    rw [cropped_eq bounded (by omega), List.drop_left' hashLength,
      List.take_left' sigLength]
  have bodyBytes : croppedFrom (hash.val ++ (sig.val ++ packetType :: content))
      98 = content := by
    rw [croppedFrom_eq (by omega)]
    have split : hash.val ++ (sig.val ++ packetType :: content) =
        (hash.val ++ sig.val ++ [packetType]) ++ content := by simp
    rw [split]
    apply List.drop_left'
    simp [hashLength, sigLength]
  have leading : cropped (hash.val ++ (sig.val ++ packetType :: content)) 0 32 =
      hash.val := by
    rw [cropped_eq bounded (by omega), List.drop_zero,
      List.take_left' hashLength]
  have enough : ¬ (hash.val ++ (sig.val ++ packetType :: content)).length <
      32 + 65 + 1 + 3 := by omega
  simp only [interpretUDP, if_neg enough, hashedBytes, signedBytes,
    signatureBytes, bodyBytes, leading, ← hashed, ne_eq, not_true_eq_false,
    if_false, hashAt_val, recovered, if_neg nonzero, List.getD_cons_zero, read,
    bind, Except.bind, pure, Except.pure]

/-- A signed datagram is read as it was written, and the echo of the answer to
a ping is the hash that the ping starts with. -/
theorem interpretUDP_sign (recovers : Signing.Recovers secret)
    (fits : datagram.packet.Fits) :
    ∃ data, datagram.sign secret = .ok data ∧
      ∃ received, interpretUDP data = .ok (some received) ∧
        received.packet = datagram.packet.received ∧
        received.ts = datagram.ts ∧
        received.sourceid = Signing.toPublic secret ∧
        received.echo = datagram.receivedEcho (hashAt 32 data) ∧
        ((∃ ping, datagram.packet = .pingNode ping) →
          ∀ (other : Secret) (source : NodeIPEndpoint) (ts : UInt32),
            Signing.Recovers other →
            ∃ pong, (received.answer source ts).sign other = .ok pong ∧
              ∃ answered, interpretUDP pong = .ok (some answered) ∧
                answered.packet = .pong ⟨source⟩ ∧
                answered.echo = hashAt 32 data) := by
  have general : ∀ (other : Secret) (datagram : DiscoveryDatagram),
      Signing.Recovers other → datagram.packet.Fits →
      ∃ data, datagram.sign other = .ok data ∧ interpretUDP data =
        .ok (some ⟨Signing.toPublic other,
          datagram.receivedEcho (hashAt 32 data), datagram.ts,
          datagram.packet.received⟩) := by
    intro other datagram recovers fits
    obtain ⟨long, small⟩ := datagram.length_script fits
    refine ⟨_, datagram.sign_eq other fits, ?_⟩
    have hash : ∀ (hash : H256) (rest : Bytes),
        hashAt 32 (hash.val ++ rest) = hash := by
      intro hash rest
      apply Subtype.ext
      show List.takeD 32 (hash.val ++ rest) 0 = hash.val
      rw [List.takeD_eq_take _ (by simp [hash.property]),
        List.take_left' hash.property]
    rw [hash]
    exact interpretUDP_eq long small rfl (recovers.recover _) recovers.nonzero
      (datagram.interpretRLP_script fits _)
  obtain ⟨data, signed, read⟩ := general secret datagram recovers fits
  refine ⟨data, signed, _, read, rfl, rfl, rfl, rfl, ?_⟩
  intro isPing other source ts otherRecovers
  obtain ⟨ping, packet⟩ := isPing
  obtain ⟨pong, answer, answered⟩ := general other
    (answer ⟨Signing.toPublic secret, datagram.receivedEcho (hashAt 32 data),
      datagram.ts, datagram.packet.received⟩ source ts) otherRecovers trivial
  refine ⟨pong, answer, _, answered, rfl, ?_⟩
  rw [DiscoveryDatagram.answer, receivedEcho, receivedEcho, packet]

end

/-! ## A signed ping -/

def discoverySampleHashing : Hashing where
  sha3 content := hashOfNat (fromBigEndian content + content.length)
  trieRoot _ := hashOfNat 0

/-- A signature that holds the secret and the message. -/
def discoverySampleSigning : Signing where
  toPublic secret := ⟨secret.val ++ secret.val, by
    rw [List.length_append, secret.property]⟩
  sign secret message := ⟨secret.val ++ (message.val ++ [0]), by
    simp only [List.length_append, secret.property, message.property]
    rfl⟩
  recover sig message :=
    if (sig.val.drop 32).take 32 = message.val then
      hashAt 64 (sig.val.take 32 ++ sig.val.take 32)
    else zeroHash 64

attribute [local instance] discoverySampleHashing discoverySampleSigning

def pingSample : DiscoveryDatagram where
  ts := 1000
  packet := .pingNode
    { source := ⟨.v4 ⟨[127, 0, 0, 1], rfl⟩, 30303, 30303⟩
      destination := ⟨.v6 (hashAt 16 [254, 128]), 30304, 0⟩ }

theorem recovers_sample : Signing.Recovers (hashOfNat 5) where
  recover message := by
    show (if ((((hashOfNat 5).val ++ (message.val ++ [0])).drop 32).take 32) =
        message.val then
      hashAt 64 (((hashOfNat 5).val ++ (message.val ++ [0])).take 32 ++
        ((hashOfNat 5).val ++ (message.val ++ [0])).take 32)
      else zeroHash 64) = _
    rw [List.drop_left' (hashOfNat 5).property,
      List.take_left' message.property, if_pos rfl,
      List.take_left' (hashOfNat 5).property]
    decide +kernel
  nonzero := by decide +kernel

theorem interpretUDP_sign_sample :
    ∃ data, pingSample.sign (hashOfNat 5) = .ok data ∧
      ∃ received, interpretUDP data = .ok (some received) ∧
        received.packet = pingSample.packet.received ∧
        received.ts = pingSample.ts ∧
        received.sourceid = Signing.toPublic (hashOfNat 5) ∧
        received.echo = pingSample.receivedEcho (hashAt 32 data) ∧
        ((∃ ping, pingSample.packet = .pingNode ping) →
          ∀ (other : Secret) (source : NodeIPEndpoint) (ts : UInt32),
            Signing.Recovers other →
            ∃ pong, (received.answer source ts).sign other = .ok pong ∧
              ∃ answered, interpretUDP pong = .ok (some answered) ∧
                answered.packet = .pong ⟨source⟩ ∧
                answered.echo = hashAt 32 data) :=
  interpretUDP_sign pingSample (hashOfNat 5) recovers_sample trivial

end DiscoveryDatagram

end Aecmio
