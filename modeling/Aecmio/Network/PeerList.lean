import Aecmio.Chain.ReceiptCodec
import Aecmio.Network.NodeTable

/-!
# The peers that a host remembers

`saveNetwork` writes a record of eleven items for a peer and one of four items
for a node of the node table; `restoreNetwork` knows them by the number of
their items.  Records of ten and of three items are those of an older version,
whose endpoints have one port.
-/

namespace Aecmio

open Item RLP RLPStream

/-- A `system_clock::time_point`, in nanoseconds from the epoch. -/
abbrev SystemTime := Int

/-- The ticks of a second. -/
def ticks : Int := 1000000000

/-- `duration_cast<seconds>`, and the count as an `unsigned`. -/
def secondsOf (time : SystemTime) : UInt32 := UInt32.ofInt (time.tdiv ticks)

/-- A number of seconds as a time. -/
def timeOf (seconds : UInt32) : SystemTime := seconds.toNat * ticks

def IPAddress.isV4 : IPAddress → Bool
  | .v4 _ => true
  | .v6 _ => false

/-- A code of `DisconnectReason`; a peer may send any. -/
abbrev DisconnectReason := UInt32

def noDisconnect : DisconnectReason := 0xffff

inductive PeerType where
  | optional
  | required
deriving DecidableEq

namespace PeerList

structure Node where
  id : NodeID
  endpoint : NodeIPEndpoint
  peerType : PeerType := .optional
deriving DecidableEq

structure Peer extends Node where
  score : Int32 := 0
  rating : Int32 := 0
  lastConnected : SystemTime := 0
  lastAttempted : SystemTime := 0
  failedAttempts : UInt32 := 0
  lastDisconnect : DisconnectReason := noDisconnect
  /-- There is a session behind `m_session`. -/
  hasSession : Bool := false
deriving DecidableEq

/-- `m_peers`: a peer stands under its own id. -/
structure PeerMap where
  map : AList fun _ : NodeID => Peer
  named : ∀ id p, map.lookup id = some p → p.id = id

theorem named_empty (id : NodeID) (p : Peer)
    (found : (∅ : AList fun _ : NodeID => Peer).lookup id = some p) :
    p.id = id := by
  cases found

theorem named_insert (peers : PeerMap) (p : Peer) (id : NodeID) (q : Peer)
    (found : (peers.map.insert p.id p).lookup id = some q) : q.id = id := by
  by_cases same : id = p.id
  · rw [same, AList.lookup_insert] at found
    rw [← Option.some.inj found, same]
  · rw [AList.lookup_insert_ne same] at found
    exact peers.named id q found

namespace PeerMap

def empty : PeerMap := ⟨∅, named_empty⟩

def insert (peers : PeerMap) (p : Peer) : PeerMap :=
  ⟨peers.map.insert p.id p, named_insert peers p⟩

/-- The peers in the order in which a loop visits them. -/
def toList (peers : PeerMap) : List Peer := peers.map.entries.map Sigma.snd

end PeerMap

/-- What saving and restoring use of a host. -/
structure Host where
  id : NodeID
  secret : Secret
  isStarted : Bool
  isRunning : Bool
  dropPeers : Bool := false
  nodeTable : Option NodeTable := none
  peers : PeerMap := .empty
  requiredPeers : Finset NodeID := ∅

/-! ## Saving -/

namespace Peer

def isOffline (p : Peer) : Bool := !p.hasSession

/-- `operator<`. -/
def lt (p other : Peer) : Bool :=
  if p.isOffline ≠ other.isOffline then p.isOffline
  else if p.isOffline then
    if p.lastAttempted = other.lastAttempted then
      p.failedAttempts < other.failedAttempts
    else p.lastAttempted < other.lastAttempted
  else if p.score = other.score then
    if p.rating = other.rating then
      if p.failedAttempts = other.failedAttempts then p.id.val < other.id.val
      else p.failedAttempts < other.failedAttempts
    else p.rating < other.rating
  else p.score < other.score

/-- The condition under which a peer is saved by the host `own`. -/
def isSaved (allowLocal : Bool) (now : SystemTime) (own : NodeID) (p : Peer) :
    Bool :=
  p.endpoint.address.isV4 ∧ now - p.lastConnected < 3600 * 48 * ticks ∧
    p.endpoint.isSet ∧ p.id ≠ own ∧
    (p.peerType = .required ∨ p.endpoint.isAllowed allowLocal)

/-- The record of a peer. -/
def streamRLP (p : Peer) (network : RLPStream) :
    Except RLPError RLPStream := do
  let network ← network.appendList 11
  let network ← p.endpoint.streamInline network
  let network ← network.append p.id.val
  let network ← network.appendInt (if p.peerType = .required then 1 else 0)
  let network ← network.appendInt (secondsOf p.lastConnected).toNat
  let network ← network.appendInt (secondsOf p.lastAttempted).toNat
  let network ← network.appendInt p.failedAttempts.toNat
  let network ← network.appendInt p.lastDisconnect.toNat
  let network ← network.appendInt p.score.toUInt32.toNat
  network.appendInt p.rating.toUInt32.toNat

end Peer

/-- The record of an entry of the node table. -/
def entryStreamRLP (entry : NodeEntry) (network : RLPStream) :
    Except RLPError RLPStream := do
  let network ← network.appendList 4
  let network ← entry.endpoint.streamInline network
  network.append entry.id.val

namespace Host

/-- `m_peers` as a sorted list, without what is not saved. -/
def savedPeers (allowLocal : Bool) (now : SystemTime) (host : Host) :
    List Peer :=
  (host.peers.toList.mergeSort fun p other => !other.lt p).filter
    (Peer.isSaved allowLocal now host.id)

/-- The snapshot of the node table.  Entries are compared by their conversion
to `bool`: whether the id is zero. -/
def savedEntries (host : Host) : List NodeEntry :=
  match host.nodeTable with
  | none => []
  | some nodeTable => nodeTable.snapshot.mergeSort fun entry other =>
      entry.id = zeroHash 64 ∨ other.id ≠ zeroHash 64

/-- The records as the last item of a file.  Their number is an `int` in the
source. -/
def appendRecords (network : RLPStream) (count : Nat) (ret : RLPStream) :
    Except RLPError RLPStream := do
  let ret ← ret.appendList count
  if count ≠ 0 then ret.appendRaw (← network.result) count else return ret

def saveNetwork (allowLocal : Bool) (now : SystemTime) (host : Host) :
    Except RLPError Bytes := do
  let peers := host.savedPeers allowLocal now
  let entries := host.savedEntries
  let network ← peers.foldlM (fun network p => p.streamRLP network) {}
  let network ← entries.foldlM
    (fun network entry => entryStreamRLP entry network) network
  let ret ← RLPStream.ofCount 3
  let ret ← ret.appendInt c_p2pProtocolVersion.toNat
  let ret ← ret.append host.secret.val
  let ret ← appendRecords network (peers.length + entries.length) ret
  ret.result

/-! ## Restoring -/

def addNodeToNodeTable [Hashing] (now : TimePoint) (host : Host) (node : Node)
    (relation : NodeRelation := .unknown) : Host :=
  { host with nodeTable := host.nodeTable.map fun nodeTable =>
      nodeTable.addNode now node.id node.endpoint relation }

/-- `requirePeer`.  The timer that it sets for the zero id looks for a node
with that id, which counts as none. -/
def requirePeer [Hashing] (now : TimePoint) (host : Host) (id : NodeID)
    (endpoint : NodeIPEndpoint) : Host :=
  let host := { host with requiredPeers := Insert.insert id host.requiredPeers }
  let node : Node := ⟨id, endpoint, .required⟩
  if !host.isRunning then host
  else if id = zeroHash 64 then host.addNodeToNodeTable now node
  else
    let p := match host.peers.map.lookup id with
      | some p => { p with endpoint, peerType := .required }
      | none => { toNode := node }
    addNodeToNodeTable now { host with peers := host.peers.insert p } p.toNode

/-- A peer that was read is put in `m_peers`. -/
def addPeer [Hashing] (now : TimePoint) (host : Host) (p : Peer) : Host :=
  let host := { host with peers := host.peers.insert p }
  if p.peerType = .required then host.requirePeer now p.id p.endpoint
  else host.addNodeToNodeTable now p.toNode .known

end Host

inductive NetworkError where
  | rlp (error : RLPError)
  | networkStartRequired
deriving DecidableEq

/-- `toArray<byte, 4>`, whose default is to make zeros of a list of another
length. -/
def toAddress (view : Bytes) : Except RLPError (FixedHash 4) := do
  if !isList view then throw .badCast
  else if (← items view) ≠ 4 then return zeroHash 4
  else
    let bytes ← (List.range 4).mapM fun position => do
      toInt .uint8 (← RLP.at_ view position) .laissezFaire
    return FixedHash.ofBytes 4 (bytes.map UInt8.ofNat)

/-- The address of a record is one of IPv4: a list of four items or a string
of four bytes. -/
def hasFour (address : Bytes) : Except RLPError Bool := do
  if (← itemCount address) = 4 then return true
  else return (← size address) = 4

/-- The fields of a peer, of which the first stands at `position`. -/
def Peer.ofRecord (i : Bytes) (n : Node) (position : Nat) :
    Except RLPError Peer := do
  let lastConnected ← toInt .uint32 (← RLP.at_ i position)
  let lastAttempted ← toInt .uint32 (← RLP.at_ i (position + 1))
  let failedAttempts ← toInt .uint32 (← RLP.at_ i (position + 2))
  let lastDisconnect ← toInt .uint32 (← RLP.at_ i (position + 3))
  let score ← toInt .uint32 (← RLP.at_ i (position + 4))
  let rating ← toInt .uint32 (← RLP.at_ i (position + 5))
  return {
    toNode := n
    lastConnected := timeOf (UInt32.ofNat lastConnected)
    lastAttempted := timeOf (UInt32.ofNat lastAttempted)
    failedAttempts := UInt32.ofNat failedAttempts
    lastDisconnect := UInt32.ofNat lastDisconnect
    score := (UInt32.ofNat score).toInt32
    rating := (UInt32.ofNat rating).toInt32 }

namespace Host

variable [Hashing] (allowLocal : Bool) (now : TimePoint)

/-- A record of a node. -/
def restoreNode (host : Host) (n : Node) : Host :=
  if n.endpoint.isAllowed allowLocal then host.addNodeToNodeTable now n
  else host

/-- A record of a peer, whose type stands at `position`. -/
def restorePeer (host : Host) (i : Bytes) (n : Node) (position : Nat) :
    Except RLPError Host := do
  let required ← toInt .uint8 (← RLP.at_ i position)
  let n := { n with
    peerType := if required ≠ 0 then PeerType.required else .optional }
  if !n.endpoint.isAllowed allowLocal ∧ n.peerType = .optional then
    return host
  else return host.addPeer now (← Peer.ofRecord i n (position + 1))

/-- The body of the loop over the records. -/
def restoreRecord (host : Host) (i : Bytes) : Except RLPError Host := do
  if !(← hasFour (← RLP.at_ i 0)) then return host
  else
    let count ← itemCount i
    if count = 4 ∨ count = 11 then
      let id ← toHash 64 (← RLP.at_ i 3)
      let n : Node := ⟨id, ← NodeIPEndpoint.interpretRLP i, .optional⟩
      if count = 4 then return host.restoreNode allowLocal now n
      else host.restorePeer allowLocal now i n 4
    else if count = 3 ∨ count = 10 then
      let id ← toHash 64 (← RLP.at_ i 2)
      let address ← toAddress (← RLP.at_ i 0)
      let port ← toInt .uint16 (← RLP.at_ i 1)
      let n : Node :=
        ⟨id, ⟨.v4 address, UInt16.ofNat port, UInt16.ofNat port⟩, .optional⟩
      if count = 3 then return host.restoreNode allowLocal now n
      else host.restorePeer allowLocal now i n 3
    else return host

def restoreRecords (host : Host) (b : Bytes) : Except RLPError Host := do
  let r ← construct b .veryStrict
  let fileVersion ← toInt .uint32 (← RLP.at_ r 0)
  let count ← itemCount r
  let isInt ← isInt (← RLP.at_ r 0)
  if 0 < count ∧ isInt ∧ c_p2pProtocolVersion.toNat - 1 ≤ fileVersion then
    (← iterate (← RLP.at_ r 2)).foldlM (restoreRecord allowLocal now) host
  else return host

/-- The host afterwards; an exception leaves what was restored before it. -/
def restoreNetwork (host : Host) (b : Bytes) : Except NetworkError Host :=
  if b.isEmpty then .ok host
  else if !host.isStarted then .error .networkStartRequired
  else if host.dropPeers then .ok host
  else (host.restoreRecords allowLocal now b).mapError .rlp

end Host

/-! ## What is written -/

namespace Peer

/-- The numbers of a record, which stand behind the id. -/
def numbers (p : Peer) : List Nat :=
  [if p.peerType = .required then 1 else 0,
    (secondsOf p.lastConnected).toNat, (secondsOf p.lastAttempted).toNat,
    p.failedAttempts.toNat, p.lastDisconnect.toNat, p.score.toUInt32.toNat,
    p.rating.toUInt32.toNat]

theorem numbers_lt (p : Peer) : ∀ number ∈ p.numbers, number < 2 ^ 32 := by
  have peerType : (if p.peerType = .required then 1 else 0) < 2 ^ 32 := by
    split <;> decide
  simp only [numbers, List.forall_mem_cons, List.not_mem_nil,
    IsEmpty.forall_iff, implies_true, and_true]
  exact ⟨peerType, UInt32.toNat_lt _, UInt32.toNat_lt _, UInt32.toNat_lt _,
    UInt32.toNat_lt _, UInt32.toNat_lt _, UInt32.toNat_lt _⟩

def script (p : Peer) : Script :=
  .counted (p.endpoint.scripts ++ .data p.id.val ::
    p.numbers.map fun number => .data (intContent number))

theorem streamRLP_eq (p : Peer) (network : RLPStream) :
    p.streamRLP network = p.script.write network := by
  have numbers := p.numbers_lt
  simp only [Peer.numbers, List.forall_mem_cons] at numbers
  obtain ⟨peerType, connected, attempted, failed, disconnect, score, rating,
    -⟩ := numbers
  have required : ∀ network : RLPStream,
      network.appendInt (if p.peerType = .required then 1 else 0) =
        network.append
          (intContent (if p.peerType = .required then 1 else 0)) := by
    intro network
    rw [← appendInt_nat peerType]
    split <;> rfl
  simp only [streamRLP, NodeIPEndpoint.streamInline_eq, script, Script.write,
    writeAll_append, Peer.numbers, List.map_cons, List.map_nil,
    Script.writeAll, appendInt_nat connected, appendInt_nat attempted,
    appendInt_nat failed, appendInt_nat disconnect, appendInt_nat score,
    appendInt_nat rating, required, bind_ok]
  rfl

end Peer

/-- The record of an entry is what a neighbour is in a packet. -/
def entryScript (entry : NodeEntry) : Script :=
  (Neighbour.mk entry.endpoint entry.id).script

theorem entryStreamRLP_eq (entry : NodeEntry) (network : RLPStream) :
    entryStreamRLP entry network = (entryScript entry).write network :=
  (Neighbour.mk entry.endpoint entry.id).streamRLP_eq network

namespace Peer

/-- The items of a record. -/
def fields (p : Peer) : List Item :=
  Script.itemAll p.endpoint.scripts ++ .data p.id.val ::
    p.numbers.map fun number => .data (intContent number)

theorem item_script (p : Peer) : p.script.item = .list p.fields := by
  rw [script, Script.item, Script.itemAll_append, Script.itemAll, itemAll_map]
  rfl

theorem length_fields (p : Peer) : (encodeAll p.fields).length ≤ 211 := by
  have endpoint := p.endpoint.length_scripts
  have id := length_encodeData_le (Nat.le_of_eq p.id.property) (by decide)
  have each : ∀ item ∈
      p.numbers.map fun number => Item.data (intContent number),
      item.encode.length ≤ 13 := by
    intro item member
    obtain ⟨number, listed, rfl⟩ := List.mem_map.mp member
    have short := length_intContent_le
      (show number < 256 ^ 4 from p.numbers_lt number listed)
    exact length_encodeData_le short (by decide)
  have numbers := length_encodeAll_le each
  rw [List.length_map, show p.numbers.length = 7 from rfl] at numbers
  rw [fields, encodeAll_append, List.length_append, encodeAll,
    List.length_append]
  simp only [encode]
  omega

theorem length_encode (p : Peer) : p.script.item.encode.length ≤ 220 := by
  have fields := p.length_fields
  have whole := encodeList_length_le
    (show (encodeAll p.fields).length < 2 ^ 64 by omega)
  rw [item_script, encode]
  omega

end Peer

theorem itemAll_eq_map (scripts : List Script) :
    Script.itemAll scripts = scripts.map Script.item := by
  have mapped := itemAll_map id scripts
  rwa [List.map_id] at mapped

/-- All the items of a list that was announced, at once. -/
theorem appendRaw_whole {out content : Bytes} {stack : List (Nat × Nat)}
    {count : Nat} (some : count ≠ 0) (small : content.length < sizeTRange) :
    appendRaw content count ⟨out, (count, out.length) :: stack⟩ =
      appendRaw (encodeList content) 1 ⟨out, stack⟩ := by
  simp [appendRaw, noteAppended, noteAppendedLoop, closingPrefix_eq small,
    some, encodeList, bind, Except.bind]

theorem appendRecords_eq {scripts : List Script}
    (small : (Script.counted scripts).item.encode.length < sizeTRange)
    (ret : RLPStream) :
    Host.appendRecords ⟨encodeAll (Script.itemAll scripts), []⟩ scripts.length
        ret = (Script.counted scripts).write ret := by
  have inner : (encodeAll (Script.itemAll scripts)).length < sizeTRange :=
    Nat.lt_trans (length_lt_encodeList _) small
  rw [(Script.counted scripts).faithful small ret]
  by_cases some : scripts.length = 0
  · obtain rfl := List.length_eq_zero_iff.mp some
    exact (bind_pure _).trans (appendListPayload_eq inner)
  · simp only [Host.appendRecords, appendList, ne_eq, some, not_false_eq_true,
      if_true]
    exact appendRaw_whole some inner

namespace Host

variable (allowLocal : Bool) (now : SystemTime) (host : Host)

/-- The records of a file. -/
def records : List Script :=
  (host.savedPeers allowLocal now).map Peer.script ++
    host.savedEntries.map entryScript

/-- The file. -/
def file : Script :=
  .counted [.data (intContent c_p2pProtocolVersion.toNat),
    .data host.secret.val, .counted (host.records allowLocal now)]

variable {allowLocal : Bool} {now : SystemTime} {host : Host}

theorem length_records : (host.records allowLocal now).length =
    (host.savedPeers allowLocal now).length + host.savedEntries.length := by
  rw [records, List.length_append, List.length_map, List.length_map]

/-- A file of fewer than `2 ^ 31` records is far from the limit of the
reader. -/
theorem length_file
    (few : host.peers.toList.length + host.savedEntries.length < 2 ^ 31) :
    (host.file allowLocal now).item.encode.length < readLimit := by
  have saved : (host.savedPeers allowLocal now).length ≤
      host.peers.toList.length := by
    rw [savedPeers, ← List.length_mergeSort host.peers.toList]
    exact List.length_filter_le _ _
  have each : ∀ item ∈ Script.itemAll (host.records allowLocal now),
      item.encode.length ≤ 220 := by
    intro item member
    rw [itemAll_eq_map, records, List.map_append, List.map_map, List.map_map,
      List.mem_append] at member
    rcases member with fromPeer | fromEntry
    · obtain ⟨p, -, rfl⟩ := List.mem_map.mp fromPeer
      exact p.length_encode
    · obtain ⟨entry, -, rfl⟩ := List.mem_map.mp fromEntry
      exact Nat.le_trans
        (Neighbour.mk entry.endpoint entry.id).length_encode (by decide)
  have total := length_encodeAll_le each
  rw [Script.length_itemAll, length_records] at total
  have bound : (encodeAll (Script.itemAll (host.records allowLocal
      now))).length < 2 ^ 40 := by omega
  have version := length_encodeData_le (@length_intContent_le
    c_p2pProtocolVersion.toNat 4 (by decide)) (by decide)
  have secret := length_encodeData_le (Nat.le_of_eq host.secret.property)
    (by decide)
  have list := encodeList_length_le (show (encodeAll (Script.itemAll
    (host.records allowLocal now))).length < 2 ^ 64 by omega)
  have payload : (encodeAll (Script.itemAll [.data (intContent
      c_p2pProtocolVersion.toNat), .data host.secret.val,
        .counted (host.records allowLocal now)])).length < 2 ^ 41 := by
    simp only [Script.itemAll, Script.item, encodeAll, encode,
      List.length_append, List.length_nil]
    omega
  have whole := encodeList_length_le (show (encodeAll (Script.itemAll [.data
    (intContent c_p2pProtocolVersion.toNat), .data host.secret.val,
      .counted (host.records allowLocal now)])).length < 2 ^ 64 by omega)
  rw [file, Script.item, encode, readLimit_eq]
  omega

theorem foldlM_records (network : RLPStream) :
    (do
      let network ← (host.savedPeers allowLocal now).foldlM
        (fun network p => p.streamRLP network) network
      host.savedEntries.foldlM
        (fun network entry => entryStreamRLP entry network) network) =
      Script.writeAll (host.records allowLocal now) network := by
  rw [records, writeAll_append, writeAll_map]
  simp only [Peer.streamRLP_eq, entryStreamRLP_eq]
  exact bind_congr fun network => (writeAll_map _ _ network).symm

theorem saveNetwork_eq
    (small : (host.file allowLocal now).item.encode.length < readLimit) :
    host.saveNetwork allowLocal now =
      .ok (host.file allowLocal now).item.encode := by
  have limit := readLimit_lt
  obtain ⟨stream, written, result⟩ :=
    @Script.write_empty (host.file allowLocal now) (by omega)
  have inner : (Script.counted
      (host.records allowLocal now)).item.encode.length < sizeTRange := by
    have member : (Script.counted (host.records allowLocal now)).item ∈
        Script.itemAll [.data (intContent c_p2pProtocolVersion.toNat),
          .data host.secret.val, .counted (host.records allowLocal now)] := by
      simp [Script.itemAll]
    have part := encode_length_le_encodeAll member
    have whole := length_lt_encodeList (encodeAll (Script.itemAll
      [.data (intContent c_p2pProtocolVersion.toNat),
        .data host.secret.val, .counted (host.records allowLocal now)]))
    simp only [file, Script.item, encode] at small part ⊢
    omega
  have flat := @Script.writeAll_flat (host.records allowLocal now)
    (fun script _ => script.faithful) []
    (Nat.lt_trans (length_lt_encodeList _) inner)
  have version := @appendInt_nat c_p2pProtocolVersion.toNat (by decide)
  have last := appendRecords_eq inner
  rw [length_records] at last
  rw [file, Script.write] at written
  simp only [Script.writeAll, ← last, bind_except_ok] at written
  have headed : (do
      let ret ← RLPStream.ofCount 3
      let ret ← ret.append (intContent c_p2pProtocolVersion.toNat)
      let ret ← ret.append host.secret.val
      appendRecords
        ⟨encodeAll (Script.itemAll (host.records allowLocal now)), []⟩
        ((host.savedPeers allowLocal now).length + host.savedEntries.length)
        ret) = .ok stream := written
  rw [saveNetwork, ← bind_assoc, foldlM_records, flat]
  simp only [version, ← bind_assoc] at headed ⊢
  exact (congrArg (· >>= RLPStream.result) headed).trans result

end Host

/-! ## What is read -/

theorem hasFour_address (endpoint : NodeIPEndpoint) :
    hasFour (encodeData endpoint.address.toBytes) =
      .ok endpoint.address.isV4 := by
  have small := small_of_le endpoint.length_address (by decide)
  have notList := isList_encodeData [] small
  rw [List.append_nil] at notList
  simp only [hasFour, itemCount, notList, size_encodeData small, bind,
    Except.bind]
  cases endpoint.address with
  | v4 bytes =>
      simp only [IPAddress.toBytes, bytes.property]
      rfl
  | v6 bytes =>
      simp only [IPAddress.toBytes, bytes.property]
      rfl

namespace Peer

variable (p : Peer)

/-- The record of a peer. -/
def record : Bytes := p.script.item.encode

/-- What a record tells of a peer: whole seconds, and no session. -/
def recorded : Peer :=
  { p with
    lastConnected := timeOf (secondsOf p.lastConnected)
    lastAttempted := timeOf (secondsOf p.lastAttempted)
    hasSession := false }

theorem readable_fields : (encodeAll p.fields).length < readLimit :=
  small_of_le p.length_fields (by decide)

theorem at_record {position : Nat} {content : Bytes}
    (found : p.fields[position]? = some (.data content)) :
    RLP.at_ p.record position = .ok (encodeData content) := by
  rw [record, item_script]
  exact at_encode p.readable_fields found

theorem itemCount_record : itemCount p.record = .ok 11 := by
  rw [record, item_script, RLP.itemCount_encode_list p.readable_fields]
  rfl

theorem endpoint_record :
    NodeIPEndpoint.interpretRLP p.record = .ok p.endpoint := by
  rw [record, item_script]
  exact p.endpoint.interpretRLP_encode _ p.readable_fields

theorem ofRecord_record : ofRecord p.record p.toNode 5 = .ok p.recorded := by
  have read : ∀ value : UInt32,
      toInt .uint32 (encodeData (intContent value.toNat)) =
        .ok value.toNat :=
    fun value => toInt_intContent value.toNat_lt
  have back : ∀ value : UInt32, UInt32.ofNat value.toNat = value :=
    fun value => UInt32.ofNat_toNat
  have connected := @at_record p 5 _ rfl
  have attempted := @at_record p 6 _ rfl
  have failed := @at_record p 7 _ rfl
  have disconnect := @at_record p 8 _ rfl
  have score := @at_record p 9 _ rfl
  have rating := @at_record p 10 _ rfl
  simp only [ofRecord, connected, attempted, failed, disconnect, score, rating,
    read, back, bind, Except.bind, pure, Except.pure,
    Int32.toInt32_toUInt32]
  rfl

end Peer

section

variable [Hashing] {allowLocal : Bool} {now : TimePoint}

theorem restorePeer_record {p : Peer}
    (kept : p.peerType = .required ∨ p.endpoint.isAllowed allowLocal = true)
    (host : Host) :
    host.restorePeer allowLocal now p.record ⟨p.id, p.endpoint, .optional⟩ 4 =
      .ok (host.addPeer now p.recorded) := by
  have peerType := @Peer.at_record p 4 _ rfl
  have required : toInt .uint8 (encodeData (intContent
      (if p.peerType = .required then 1 else 0))) =
        .ok (if p.peerType = .required then 1 else 0) :=
    toInt_intContent (by split <;> decide)
  have same : (if (if p.peerType = .required then 1 else 0) ≠ 0 then
      PeerType.required else .optional) = p.peerType := by
    cases p.peerType <;> rfl
  have passes : ¬ (!p.endpoint.isAllowed allowLocal ∧
      p.peerType = .optional) := by
    rintro ⟨refused, optional⟩
    rcases kept with required | allowed
    · rw [required] at optional
      cases optional
    · rw [allowed] at refused
      cases refused
  simp only [Host.restorePeer, peerType, required, same, if_neg passes, bind,
    Except.bind]
  exact congrArg (Except.map (host.addPeer now)) p.ofRecord_record

/-- A peer with an address of IPv4 is read back. -/
theorem restoreRecord_record {p : Peer} (isV4 : p.endpoint.address.isV4 = true)
    (kept : p.peerType = .required ∨ p.endpoint.isAllowed allowLocal = true)
    (host : Host) :
    host.restoreRecord allowLocal now p.record =
      .ok (host.addPeer now p.recorded) := by
  have address := @Peer.at_record p 0 _ rfl
  have four := hasFour_address p.endpoint
  have id := @Peer.at_record p 3 _ rfl
  have idRead := toHash_written p.id .strict (by rw [readLimit_eq]; decide)
  simp only [Host.restoreRecord, address, four, isV4, p.itemCount_record, id,
    idRead, p.endpoint_record, restorePeer_record kept, bind, Except.bind]
  rfl

/-- An entry of the node table leaves the peers as they are. -/
theorem restoreRecord_entry (entry : NodeEntry) (host : Host) :
    ∃ restored, host.restoreRecord allowLocal now
        (entryScript entry).item.encode = .ok restored ∧
      restored.peers = host.peers := by
  have small := small_of_le
    (Neighbour.mk entry.endpoint entry.id).length_fields (by decide)
  have address := @at_encode _ 0 (.data entry.endpoint.address.toBytes) small
    rfl
  have id := @at_encode _ 3 (.data entry.id.val) small rfl
  have idRead := toHash_written entry.id .strict
    (by rw [readLimit_eq]; decide)
  have endpoint := entry.endpoint.interpretRLP_encode _ small
  have count := RLP.itemCount_encode_list small
  have four : (Script.itemAll entry.endpoint.scripts ++
      [Item.data entry.id.val]).length = 4 := rfl
  have item : (entryScript entry).item = .list
      (Script.itemAll entry.endpoint.scripts ++ [.data entry.id.val]) :=
    (Neighbour.mk entry.endpoint entry.id).item_script
  rw [item]
  simp only [encode] at address id
  cases isV4 : entry.endpoint.address.isV4 with
  | false =>
      refine ⟨host, ?_, rfl⟩
      simp only [Host.restoreRecord, encode, address, hasFour_address, isV4,
        bind, Except.bind]
      rfl
  | true =>
      refine ⟨host.restoreNode allowLocal now
        ⟨entry.id, entry.endpoint, .optional⟩, ?_, ?_⟩
      · simp only [encode] at count endpoint
        simp only [Host.restoreRecord, encode, address, hasFour_address, isV4,
          count, four, id, idRead, endpoint, bind, Except.bind]
        rfl
      · rw [Host.restoreNode]
        split <;> rfl

theorem restoreRecords_entries (entries : List NodeEntry) (host : Host) :
    ∃ restored, (entries.map fun entry =>
        (entryScript entry).item.encode).foldlM
          (Host.restoreRecord allowLocal now) host = .ok restored ∧
      restored.peers = host.peers := by
  induction entries generalizing host with
  | nil => exact ⟨host, rfl, rfl⟩
  | cons entry entries induction =>
      obtain ⟨next, first, same⟩ :=
        @restoreRecord_entry _ allowLocal now entry host
      obtain ⟨restored, others, unchanged⟩ := induction next
      refine ⟨restored, ?_, unchanged.trans same⟩
      rw [List.map_cons, List.foldlM_cons, first]
      exact others

end

/-! ## The peers afterwards -/

theorem lookup_insert (peers : PeerMap) (p : Peer) (id : NodeID) :
    (peers.insert p).map.lookup id =
      if id = p.id then some p else peers.map.lookup id := by
  rw [PeerMap.insert]
  split
  · next same => rw [same, AList.lookup_insert]
  · next different => rw [AList.lookup_insert_ne different]

theorem mem_toList {peers : PeerMap} {p : Peer} :
    p ∈ peers.toList ↔ peers.map.lookup p.id = some p := by
  rw [← Option.mem_def, AList.mem_lookup_iff, PeerMap.toList, List.mem_map]
  constructor
  · rintro ⟨⟨id, q⟩, member, same⟩
    obtain rfl : q = p := same
    have found := AList.mem_lookup_iff.mpr member
    rwa [peers.named id q found]
  · exact fun member => ⟨⟨p.id, p⟩, member, rfl⟩

theorem mem_savedPeers {allowLocal : Bool} {now : SystemTime} {host : Host}
    {p : Peer} : p ∈ host.savedPeers allowLocal now ↔
      host.peers.map.lookup p.id = some p ∧
        p.isSaved allowLocal now host.id = true := by
  rw [Host.savedPeers, List.mem_filter,
    (List.mergeSort_perm _ _).mem_iff, mem_toList]

section

variable [Hashing] {allowLocal : Bool} {now : TimePoint}

/-- Requiring a peer that is required at this endpoint changes no peer. -/
theorem lookup_requirePeer {host : Host} {p : Peer} (id : NodeID)
    (found : host.peers.map.lookup p.id = some p)
    (required : p.peerType = .required) :
    (host.requirePeer now p.id p.endpoint).peers.map.lookup id =
      host.peers.map.lookup id := by
  have same : { p with endpoint := p.endpoint, peerType := .required } = p := by
    rw [← required]
  simp only [Host.requirePeer]
  split
  · rfl
  · split
    · rfl
    · simp only [found, same]
      refine (lookup_insert host.peers p id).trans ?_
      split
      · next here => rw [here, found]
      · rfl

theorem lookup_addPeer (host : Host) (p : Peer) (id : NodeID) :
    (host.addPeer now p).peers.map.lookup id =
      if id = p.id then some p else host.peers.map.lookup id := by
  rw [Host.addPeer]
  split
  · next required =>
      rw [lookup_requirePeer id ?_ required]
      · exact lookup_insert host.peers p id
      · exact (lookup_insert host.peers p p.id).trans (if_pos rfl)
  · exact lookup_insert host.peers p id

/-- A loop over records of peers puts each of them in `m_peers`. -/
theorem restoreRecords_peers {peers : List Peer}
    (each : ∀ p ∈ peers, p.endpoint.address.isV4 = true ∧
      (p.peerType = .required ∨ p.endpoint.isAllowed allowLocal = true))
    (host : Host) :
    (peers.map Peer.record).foldlM (Host.restoreRecord allowLocal now) host =
      .ok (peers.foldl (fun host p => host.addPeer now p.recorded) host) := by
  induction peers generalizing host with
  | nil => rfl
  | cons p peers induction =>
      obtain ⟨isV4, kept⟩ := each p List.mem_cons_self
      rw [List.map_cons, List.foldlM_cons, restoreRecord_record isV4 kept]
      exact induction (fun other member =>
        each other (List.mem_cons_of_mem _ member)) _

theorem lookup_foldl_other {peers : List Peer} {host : Host} {id : NodeID}
    (none : ∀ p ∈ peers, p.id ≠ id) :
    (peers.foldl (fun host p => host.addPeer now p.recorded)
      host).peers.map.lookup id = host.peers.map.lookup id := by
  induction peers generalizing host with
  | nil => rfl
  | cons p peers induction =>
      rw [List.foldl_cons, induction fun other member =>
        none other (List.mem_cons_of_mem _ member), lookup_addPeer]
      exact if_neg fun same => none p List.mem_cons_self same.symm

theorem lookup_foldl {peers : List Peer} {host : Host}
    (same : ∀ p ∈ peers, ∀ q ∈ peers, p.id = q.id → p = q) {p : Peer}
    (member : p ∈ peers) :
    (peers.foldl (fun host p => host.addPeer now p.recorded)
      host).peers.map.lookup p.id = some p.recorded := by
  induction peers generalizing host with
  | nil => cases member
  | cons first peers induction =>
      by_cases later : p ∈ peers
      · exact induction (fun one here other there =>
          same one (List.mem_cons_of_mem _ here) other
            (List.mem_cons_of_mem _ there)) later
      · obtain rfl := (List.mem_cons.mp member).resolve_right later
        have apart : ∀ other ∈ peers, other.id ≠ p.id := by
          intro other there equal
          have equals := same other (List.mem_cons_of_mem _ there) p member
            equal
          exact later (equals ▸ there)
        rw [List.foldl_cons, lookup_foldl_other apart, lookup_addPeer]
        exact if_pos rfl

/-- A file is read up to its records. -/
theorem restoreRecords_file {clock : SystemTime} {host fresh : Host}
    (small : (host.file allowLocal clock).item.encode.length < readLimit) :
    fresh.restoreRecords allowLocal now
        (host.file allowLocal clock).item.encode =
      ((host.records allowLocal clock).map fun record =>
        record.item.encode).foldlM (Host.restoreRecord allowLocal now)
          fresh := by
  rw [Host.file, Script.item] at small ⊢
  simp only [Script.itemAll, Script.item, itemAll_eq_map] at small ⊢
  have readable := readable_of_length small
  have records := readable_of_mem (List.mem_cons_of_mem _
    (List.mem_cons_of_mem _ List.mem_cons_self)) readable
  have constructed := construct_encode readable
  have version := @at_encode _ 0
    (.data (intContent c_p2pProtocolVersion.toNat)) readable rfl
  have list := @at_encode _ 2 _ readable rfl
  have short : (intContent c_p2pProtocolVersion.toNat).length < readLimit :=
    small_of_le (@length_intContent_le _ 4 (by decide)) (by decide)
  have isInt := isInt_encodeData short (head?_intContent _)
  have read : toInt .uint32 (encodeData (intContent
      c_p2pProtocolVersion.toNat)) = .ok c_p2pProtocolVersion.toNat :=
    toInt_intContent (by decide)
  have count := RLP.itemCount_encode_list readable
  have parts := iterate_encode_list records
  rw [List.map_map] at parts
  rw [show encode (.data (intContent c_p2pProtocolVersion.toNat)) =
    encodeData (intContent c_p2pProtocolVersion.toNat) from rfl] at version
  simp only [Host.restoreRecords, constructed, version, read, count, isInt,
    list, parts, bind, Except.bind]
  rfl

end

/-- Each peer that is saved comes back as its record tells. -/
theorem restore_saved [Hashing] {allowLocal : Bool} {clock : SystemTime}
    {now : TimePoint} {host fresh : Host}
    (few : host.peers.toList.length + host.savedEntries.length < 2 ^ 31)
    (started : fresh.isStarted = true) (kept : fresh.dropPeers = false)
    (alone : fresh.peers = .empty) :
    ∃ file restored, host.saveNetwork allowLocal clock = .ok file ∧
      fresh.restoreNetwork allowLocal now file = .ok restored ∧
      ∀ id, restored.peers.map.lookup id =
        ((host.peers.map.lookup id).filter
          (Peer.isSaved allowLocal clock host.id)).map Peer.recorded := by
  have small := @Host.length_file allowLocal clock host few
  have saved := Host.saveNetwork_eq small
  have member := @mem_savedPeers allowLocal clock host
  have readBack : ∀ p ∈ host.savedPeers allowLocal clock,
      p.endpoint.address.isV4 = true ∧
        (p.peerType = .required ∨
          p.endpoint.isAllowed allowLocal = true) := by
    intro p listed
    have isSaved := (member.mp listed).2
    simp only [Peer.isSaved, decide_eq_true_eq] at isSaved
    exact ⟨isSaved.1, isSaved.2.2.2.2⟩
  have unique : ∀ p ∈ host.savedPeers allowLocal clock,
      ∀ q ∈ host.savedPeers allowLocal clock, p.id = q.id → p = q := by
    intro p here q there same
    have one := (member.mp here).1
    rw [same, (member.mp there).1] at one
    exact (Option.some.inj one).symm
  have peers := @restoreRecords_peers _ allowLocal now _ readBack fresh
  obtain ⟨restored, entries, unchanged⟩ :=
    @restoreRecords_entries _ allowLocal now host.savedEntries
      ((host.savedPeers allowLocal clock).foldl
        (fun host p => host.addPeer now p.recorded) fresh)
  have read := @restoreRecords_file _ allowLocal now clock host fresh small
  rw [Host.records, List.map_append, List.map_map, List.map_map,
    List.foldlM_append] at read
  refine ⟨_, restored, saved, ?_, fun id => ?_⟩
  · have nonempty : ((host.file allowLocal clock).item.encode).isEmpty =
        false := by
      rw [List.isEmpty_eq_false_iff]
      exact List.ne_nil_of_length_pos (encode_pos _)
    rw [Host.restoreNetwork, nonempty, started, kept]
    simp only [Bool.false_eq_true, if_false, Bool.not_true]
    rw [read, show (host.savedPeers allowLocal clock).map
      ((fun record : Script => record.item.encode) ∘ Peer.script) =
        (host.savedPeers allowLocal clock).map Peer.record from rfl, peers]
    exact congrArg (Except.mapError NetworkError.rlp) entries
  · have absent : (∀ p ∈ host.savedPeers allowLocal clock, p.id ≠ id) →
        restored.peers.map.lookup id = none := by
      intro apart
      rw [unchanged, lookup_foldl_other apart, alone]
      rfl
    cases found : host.peers.map.lookup id with
    | none =>
        refine absent fun p listed same => ?_
        rw [← same, (member.mp listed).1] at found
        cases found
    | some p =>
        obtain rfl := host.peers.named id p found
        by_cases isSaved : p.isSaved allowLocal clock host.id = true
        · rw [unchanged, lookup_foldl unique (member.mpr ⟨found, isSaved⟩)]
          simp [isSaved]
        · rw [absent]
          · simp [isSaved]
          · intro q listed same
            have there := member.mp listed
            rw [same, found] at there
            rw [Option.some.inj there.1] at isSaved
            exact isSaved there.2

/-! ## Peers with whole seconds -/

namespace Peer

/-- A peer at an allowed address of IPv4 that was connected within two days,
with times that are whole seconds of 32 bits. -/
structure Savable (allowLocal : Bool) (now : SystemTime) (p : Peer) :
    Prop where
  isV4 : p.endpoint.address.isV4 = true
  isAllowed : p.endpoint.isAllowed allowLocal = true
  recent : now - p.lastConnected < 3600 * 48 * ticks
  connected : ∃ seconds, p.lastConnected = timeOf seconds
  attempted : ∃ seconds, p.lastAttempted = timeOf seconds

/-- The peer, which has no session. -/
def offline (p : Peer) : Peer := { p with hasSession := false }

end Peer

theorem secondsOf_timeOf (seconds : UInt32) :
    secondsOf (timeOf seconds) = seconds := by
  have small := seconds.toNat_lt
  rw [secondsOf, timeOf, Int.mul_tdiv_cancel _ (by decide), UInt32.ofInt]
  have reduced : ((seconds.toNat : Int) % 2 ^ 32).toNat = seconds.toNat := by
    omega
  rw [reduced, UInt32.ofNat_toNat]

theorem not_isUnspecified {allowLocal : Bool} {endpoint : NodeIPEndpoint}
    (allowed : endpoint.isAllowed allowLocal = true) :
    endpoint.address.isUnspecified = false := by
  cases unspecified : endpoint.address.isUnspecified with
  | false => rfl
  | true =>
      cases allowLocal with
      | true => simp [NodeIPEndpoint.isAllowed, unspecified] at allowed
      | false =>
          simp only [IPAddress.isUnspecified, decide_eq_true_eq] at unspecified
          rcases unspecified with same | same
          · simp [NodeIPEndpoint.isAllowed, IPAddress.isPublicAddress,
              IPAddress.isLocalHostAddress, same] at allowed
          · simp [NodeIPEndpoint.isAllowed, IPAddress.isPublicAddress,
              IPAddress.isLocalHostAddress, same] at allowed

namespace Peer

variable {allowLocal : Bool} {now : SystemTime} {p : Peer}

theorem Savable.recorded (savable : Savable allowLocal now p) :
    p.recorded = p.offline := by
  obtain ⟨connected, lastConnected⟩ := savable.connected
  obtain ⟨attempted, lastAttempted⟩ := savable.attempted
  have one : timeOf (secondsOf p.lastConnected) = p.lastConnected := by
    rw [lastConnected, secondsOf_timeOf]
  have two : timeOf (secondsOf p.lastAttempted) = p.lastAttempted := by
    rw [lastAttempted, secondsOf_timeOf]
  rw [Peer.recorded, one, two, offline]

theorem Savable.isSaved_iff (savable : Savable allowLocal now p)
    (own : NodeID) : p.isSaved allowLocal now own = true ↔
      p.endpoint.udpPort ≠ 0 ∧ p.endpoint.tcpPort ≠ 0 ∧ p.id ≠ own := by
  have specified := not_isUnspecified savable.isAllowed
  have positive : ∀ port : UInt16, 0 < port ↔ port ≠ 0 :=
    fun port => UInt16.pos_iff_ne_zero
  have isSet : p.endpoint.isSet = true ↔
      p.endpoint.udpPort ≠ 0 ∧ p.endpoint.tcpPort ≠ 0 := by
    simp [NodeIPEndpoint.isSet, specified, positive]
  simp only [isSaved, decide_eq_true_eq, isSet]
  constructor
  · rintro ⟨-, -, ⟨udpPort, tcpPort⟩, other, -⟩
    exact ⟨udpPort, tcpPort, other⟩
  · rintro ⟨udpPort, tcpPort, other⟩
    exact ⟨savable.isV4, savable.recent, ⟨udpPort, tcpPort⟩, other,
      .inr savable.isAllowed⟩

end Peer

/-- Restoring what was saved gives exactly the peers that have two ports and
are not the host itself, with all their fields. -/
theorem restoreNetwork_saveNetwork [Hashing] {allowLocal : Bool}
    {clock : SystemTime} {now : TimePoint} {host fresh : Host}
    (savable : ∀ id p, host.peers.map.lookup id = some p →
      p.Savable allowLocal clock)
    (few : host.peers.toList.length + host.savedEntries.length < 2 ^ 31)
    (started : fresh.isStarted = true) (kept : fresh.dropPeers = false)
    (alone : fresh.peers = .empty) :
    ∃ file restored, host.saveNetwork allowLocal clock = .ok file ∧
      fresh.restoreNetwork allowLocal now file = .ok restored ∧
      ∀ id, restored.peers.map.lookup id =
        ((host.peers.map.lookup id).filter fun p =>
          p.endpoint.udpPort ≠ 0 ∧ p.endpoint.tcpPort ≠ 0 ∧
            p.id ≠ host.id).map Peer.offline := by
  obtain ⟨file, restored, saved, read, peers⟩ :=
    @restore_saved _ allowLocal clock now host fresh few started kept alone
  refine ⟨file, restored, saved, read, fun id => ?_⟩
  rw [peers]
  cases found : host.peers.map.lookup id with
  | none => rfl
  | some p =>
      have fields := savable id p found
      have same : p.isSaved allowLocal clock host.id =
          decide (p.endpoint.udpPort ≠ 0 ∧ p.endpoint.tcpPort ≠ 0 ∧
            p.id ≠ host.id) := by
        rw [Bool.eq_iff_iff, fields.isSaved_iff, decide_eq_true_eq]
      rw [Option.filter_some, Option.filter_some, same]
      split
      · exact congrArg some fields.recorded
      · rfl

/-- A peer with a negative score at 8.8.8.8. -/
def peerSample (tcpPort : UInt16) : Peer where
  id := ⟨List.replicate 64 7, rfl⟩
  endpoint := ⟨.v4 ⟨[8, 8, 8, 8], rfl⟩, 30303, tcpPort⟩
  peerType := .required
  score := -5
  rating := -1
  lastConnected := timeOf 1500000000
  lastAttempted := timeOf 1500000001
  failedAttempts := 3
  lastDisconnect := 4

def hostSample (peers : PeerMap) : Host where
  id := ⟨List.replicate 64 1, rfl⟩
  secret := hashOfNat 2
  isStarted := true
  isRunning := true
  peers

theorem savable_sample (tcpPort : UInt16) (id : NodeID) (p : Peer)
    (found : (hostSample (PeerMap.empty.insert (peerSample
      tcpPort))).peers.map.lookup id = some p) :
    p.Savable false (timeOf 1500000002) := by
  rw [hostSample, lookup_insert] at found
  split at found
  · obtain rfl := Option.some.inj found
    have recent : timeOf 1500000002 - timeOf 1500000000 <
        3600 * 48 * ticks := by decide
    exact ⟨rfl, rfl, recent, ⟨_, rfl⟩, ⟨_, rfl⟩⟩
  · cases found

def peerSampleHashing : Hashing where
  sha3 _ := zeroHash 32
  trieRoot _ := zeroHash 32

theorem restoreNetwork_saveNetwork_sample :
    ∃ file restored,
      (hostSample (PeerMap.empty.insert (peerSample 30303))).saveNetwork false
          (timeOf 1500000002) = .ok file ∧
      @Host.restoreNetwork peerSampleHashing false 0 (hostSample .empty) file =
        .ok restored ∧
      restored.peers.map.lookup (peerSample 30303).id =
        some (peerSample 30303) := by
  obtain ⟨file, restored, saved, read, peers⟩ :=
    @restoreNetwork_saveNetwork peerSampleHashing false _ 0 _
      (hostSample .empty) (savable_sample 30303) (by decide) rfl rfl rfl
  refine ⟨file, restored, saved, read, (peers _).trans ?_⟩
  decide

/-- A peer whose TCP port is not known is lost. -/
theorem portless_peer_lost :
    (peerSample 0).Savable false (timeOf 1500000002) ∧
    ∃ file restored,
      (hostSample (PeerMap.empty.insert (peerSample 0))).saveNetwork false
          (timeOf 1500000002) = .ok file ∧
      @Host.restoreNetwork peerSampleHashing false 0 (hostSample .empty) file =
        .ok restored ∧
      (hostSample (PeerMap.empty.insert (peerSample 0))).peers.map.lookup
          (peerSample 0).id = some (peerSample 0) ∧
      restored.peers.map.lookup (peerSample 0).id = none := by
  have found : (hostSample (PeerMap.empty.insert (peerSample
      0))).peers.map.lookup (peerSample 0).id = some (peerSample 0) :=
    (lookup_insert _ _ _).trans (if_pos rfl)
  obtain ⟨file, restored, saved, read, peers⟩ :=
    @restore_saved peerSampleHashing false (timeOf 1500000002) 0
      (hostSample (PeerMap.empty.insert (peerSample 0)))
      (hostSample .empty) (by decide) rfl rfl rfl
  refine ⟨savable_sample 0 _ _ found, file, restored, saved, read, found,
    (peers _).trans ?_⟩
  rw [found]
  decide

end PeerList

end Aecmio
