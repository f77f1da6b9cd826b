import Mathlib.Data.List.AList
import Mathlib.Data.List.Destutter
import Mathlib.Data.List.Sort
import Aecmio.Logic.Runs
import Aecmio.Network.Discovery

/-!
# The node table

The table of discovery keeps an entry for every node it has heard of and, by
distance from the own node, buckets of the nodes that were active.  A bucket
holds weak pointers: an entry lives as long as it is the one of its node or is
in the hands of a discovery that goes on.
-/

namespace Aecmio

abbrev NodeID := Public

/-- A `steady_clock::time_point` in milliseconds. -/
abbrev TimePoint := Nat

/-- `bi::udp::endpoint`. -/
structure UdpEndpoint where
  address : IPAddress
  port : UInt16
deriving DecidableEq

/-! ## Addresses -/

namespace IPAddress

def isUnspecified (address : IPAddress) : Bool :=
  address = .v4 (zeroHash 4) ∨ address = .v6 (zeroHash 16)

def isPrivateAddress : IPAddress → Bool
  | .v4 bytes =>
      let first := bytes.val.getD 0 0
      let second := bytes.val.getD 1 0
      first = 10 ∨ first = 127 ∨
        (first = 172 ∧ 16 ≤ second ∧ second ≤ 31) ∨
        (first = 192 ∧ second = 168)
  | .v6 bytes =>
      (bytes.val.getD 0 0 = 0xfd ∧ bytes.val.getD 1 0 = 0) ∨
        ((∀ byte ∈ bytes.val.take 15, byte = 0) ∧
          (bytes.val.getD 15 0 = 0 ∨ bytes.val.getD 15 0 = 1))

theorem length_localHost : ([127, 0, 0, 1] : Bytes).length = 4 := rfl

def isLocalHostAddress (address : IPAddress) : Bool :=
  address = .v4 ⟨[127, 0, 0, 1], length_localHost⟩ ∨
    address = .v4 (zeroHash 4) ∨
    address = .v6 ⟨List.replicate 15 0 ++ [1], rfl⟩ ∨
    address = .v6 (zeroHash 16)

def isPublicAddress (address : IPAddress) : Bool :=
  !(address.isPrivateAddress || address.isLocalHostAddress)

end IPAddress

namespace NodeIPEndpoint

/-- `operator bool`. -/
def isSet (endpoint : NodeIPEndpoint) : Bool :=
  !endpoint.address.isUnspecified ∧ 0 < endpoint.udpPort ∧
    0 < endpoint.tcpPort

/-- `isAllowed`, with the value of `test_allowLocal`. -/
def isAllowed (allowLocal : Bool) (endpoint : NodeIPEndpoint) : Bool :=
  if allowLocal then !endpoint.address.isUnspecified
  else endpoint.address.isPublicAddress

def toUdp (endpoint : NodeIPEndpoint) : UdpEndpoint :=
  ⟨endpoint.address, endpoint.udpPort⟩

end NodeIPEndpoint

/-! ## The state of a table -/

structure NodeEntry where
  id : NodeID
  endpoint : NodeIPEndpoint
  distance : Nat
  /-- The node is ignored until a pong is received. -/
  pending : Bool := true

structure EvictionTimeout where
  newNodeID : NodeID
  evictedTimePoint : TimePoint
deriving DecidableEq

inductive NodeTableEventType where
  | nodeEntryAdded
  | nodeEntryDropped
deriving DecidableEq

inductive NodeRelation where
  | unknown
  | known
deriving DecidableEq

/-- What a timer does.  A round of a discovery keeps the entries it has tried;
entries are numbered in the order in which they were made. -/
inductive Task where
  | doCheckEvictions
  | doDiscovery
  | doDiscover (node : NodeID) (round : Nat) (tried : List Nat)

/-- The entries that a task keeps alive. -/
def Task.tried : Task → List Nat
  | .doDiscover _ _ tried => tried
  | _ => []

structure Timer where
  due : TimePoint
  task : Task

structure NodeTable where
  id : NodeID
  endpoint : NodeIPEndpoint
  allowLocal : Bool
  isOpen : Bool
  /-- Every entry that was ever made. -/
  entries : List NodeEntry := []
  nodes : AList (fun _ : NodeID => Nat) := ∅
  state : Nat → List Nat := fun _ => []
  evictions : AList (fun _ : NodeID => EvictionTimeout) := ∅
  pubkDiscoverPings : AList (fun _ : IPAddress => TimePoint) := ∅
  findNodeTimeout : List (NodeID × TimePoint) := []
  timers : List Timer := []
  events : List (NodeID × NodeTableEventType) := []

namespace NodeTable

def s_bins : Nat := 255

def s_bucketSize : Nat := 16

def s_alpha : Nat := 3

def s_maxSteps : Nat := 8

def c_evictionCheckInterval : Nat := 75

def c_reqTimeout : Nat := 300

def c_bucketRefresh : Nat := 7200

/-- The position of the highest bit in which the hashes differ. -/
def distance [Hashing] (one other : NodeID) : Nat :=
  Nat.log2 (fromBigEndian (sha3 one.val).val ^^^
    fromBigEndian (sha3 other.val).val)

variable (table : NodeTable)

def schedule (now delay : TimePoint) (task : Task) : NodeTable :=
  { table with timers := table.timers ++ [⟨now + delay, task⟩] }

def appendEvent (id : NodeID) (event : NodeTableEventType) : NodeTable :=
  { table with events := table.events ++ [(id, event)] }

/-- The entry with a number. -/
def entry (number : Nat) : NodeEntry :=
  table.entries.getD number
    { id := zeroHash 64, endpoint := {}, distance := 0 }

def setEntry (number : Nat) (change : NodeEntry → NodeEntry) : NodeTable :=
  { table with entries := table.entries.modify number change }

/-- `bucket_UNSAFE`. -/
def bucket (number : Nat) : Nat := (table.entry number).distance - 1

def setBucket (index : Nat) (nodes : List Nat) : NodeTable :=
  { table with state := Function.update table.state index nodes }

/-- The entries that discoveries keep. -/
def held : List Nat := table.timers.flatMap fun timer => timer.task.tried

/-- `weak_ptr::lock` gives the entry. -/
def isLive (number : Nat) : Bool :=
  number ∈ table.nodes.entries.map Sigma.snd ∨ number ∈ table.held

def snapshot : List NodeEntry :=
  (List.range s_bins).flatMap fun index =>
    ((table.state index).filter table.isLive).map table.entry

/-! ## Evictions -/

def doCheckEvictions (now : TimePoint) : NodeTable :=
  table.schedule now c_evictionCheckInterval .doCheckEvictions

/-- `m_evictions.emplace`, which keeps what is there. -/
def challenge (now : TimePoint) (leastSeen new : Nat) : NodeTable :=
  if (table.entry leastSeen).id ∈ table.evictions then table
  else { table with
    evictions := table.evictions.insert (table.entry leastSeen).id
      ⟨(table.entry new).id, now⟩ }

def evict (now : TimePoint) (leastSeen new : Nat) : NodeTable :=
  if !table.isOpen then table
  else
    let table := table.challenge now leastSeen new
    if table.evictions.entries.length = 1 then table.doCheckEvictions now
    else table

def dropNode (number : Nat) : NodeTable :=
  let index := table.bucket number
  let table := table.setBucket index
    ((table.state index).filter fun other => other ≠ number)
  table.appendEvent (table.entry number).id .nodeEntryDropped

/-- The handler of the timer of `doCheckEvictions`. -/
def checkEvictions (now : TimePoint) : NodeTable :=
  let drop := table.evictions.entries.filterMap fun eviction =>
    if eviction.2.evictedTimePoint + c_reqTimeout < now then
      table.nodes.lookup eviction.2.newNodeID
    else none
  let evictionsRemain := 0 < table.evictions.entries.length - drop.length
  let table := (drop.destutter (· ≠ ·)).foldl dropNode table
  if evictionsRemain then table.doCheckEvictions now else table

/-! ## Nodes -/

def noteActiveNode (now : TimePoint) (id : NodeID) (endpoint : UdpEndpoint) :
    NodeTable :=
  if id = table.id ∨ !NodeIPEndpoint.isAllowed table.allowLocal
      ⟨endpoint.address, endpoint.port, endpoint.port⟩ then table
  else match table.nodes.lookup id with
    | none => table
    | some newNode =>
        if (table.entry newNode).pending then table
        else
          let table := table.setEntry newNode fun entry => { entry with
            endpoint := { entry.endpoint with
              address := endpoint.address
              udpPort := endpoint.port } }
          let index := table.bucket newNode
          let nodes := table.state index
          if newNode ∈ nodes then
            table.setBucket index (nodes.erase newNode ++ [newNode])
          else if nodes.length < s_bucketSize then
            (table.setBucket index (nodes ++ [newNode])).appendEvent id
              .nodeEntryAdded
          else match nodes with
            | [] => table
            | leastSeen :: others =>
                if table.isLive leastSeen then
                  table.evict now leastSeen newNode
                else
                  (table.setBucket index (others ++ [newNode])).appendEvent id
                    .nodeEntryAdded

section

variable [Hashing]

/-- `make_shared<NodeEntry>`, put in `m_nodes`. -/
def register (id : NodeID) (endpoint : NodeIPEndpoint) (pending : Bool) :
    NodeTable :=
  { table with
    entries := table.entries ++
      [{ id, endpoint, distance := distance table.id id, pending }]
    nodes := table.nodes.insert id table.entries.length }

def addNode (now : TimePoint) (id : NodeID) (endpoint : NodeIPEndpoint)
    (relation : NodeRelation := .unknown) : NodeTable :=
  match relation with
  | .known =>
      (table.register id endpoint false).noteActiveNode now id endpoint.toUdp
  | .unknown =>
      if !endpoint.isSet then table
      else if id = zeroHash 64 then
        { table with
          pubkDiscoverPings :=
            table.pubkDiscoverPings.insert endpoint.address now }
      else if id ∈ table.nodes then table
      else table.register id endpoint true

/-! ## Discoveries -/

/-- The buckets that `nearestNodeEntries` looks at, for at most `rounds`
rounds of the loop that goes both ways. -/
def spread : Nat → Nat → Nat → List Nat
  | 0, _, _ => []
  | rounds + 1, head, tail =>
      if head ≠ tail ∧ head < s_bins then
        head :: (if tail ≠ 0 then [tail] else []) ++
          spread rounds (head + 1) (tail - 1)
      else []

def lookedAt (head : Nat) : List Nat :=
  let lastBin := s_bins - 1
  let tail := if head = 0 then lastBin else (head - 1) % s_bins
  if 1 < head ∧ tail ≠ lastBin then spread s_bins head tail
  else if head < 2 then List.range' head (s_bins - head)
  else (List.range' 1 tail).reverse

def nearestNodeEntries (target : NodeID) : List Nat :=
  let found := (lookedAt (distance table.id target)).flatMap fun index =>
    (table.state index).filter table.isLive
  let found := found.insertionSort fun one other =>
    distance target (table.entry one).id ≤ distance target (table.entry other).id
  (found.filter fun number =>
    (table.entry number).endpoint.isSet ∧
      (table.entry number).endpoint.isAllowed table.allowLocal).take s_bucketSize

def doDiscovery (now : TimePoint) : NodeTable :=
  table.schedule now c_bucketRefresh .doDiscovery

def doDiscover (now : TimePoint) (node : NodeID) (round : Nat)
    (tried : List Nat) : NodeTable :=
  if !table.isOpen then table
  else if round = s_maxSteps then table.doDiscovery now
  else
    let asked := ((table.nearestNodeEntries node).filter fun number =>
      number ∉ tried).take s_alpha
    let table := { table with
      findNodeTimeout := table.findNodeTimeout ++
        asked.map fun number => ((table.entry number).id, now) }
    if asked.isEmpty then table.doDiscovery now
    else table.schedule now (c_reqTimeout * 2)
      (.doDiscover node (round + 1) (tried ++ asked))

/-! ## Packets -/

def clearPending (number : Nat) : NodeTable :=
  table.setEntry number fun entry => { entry with pending := false }

/-- The entry of a node is dropped if there is one. -/
def dropKnown (id : NodeID) : NodeTable :=
  match table.nodes.lookup id with
  | some number => table.dropNode number
  | none => table

def clearKnown (id : NodeID) : NodeTable :=
  match table.nodes.lookup id with
  | some number => table.clearPending number
  | none => table

/-- The pong of a node that is found in the evictions. -/
def keepLeastSeen (leastSeenID : NodeID) (eviction : EvictionTimeout) :
    NodeTable :=
  let table := { table with evictions := table.evictions.erase leastSeenID }
  (table.dropKnown eviction.newNodeID).clearKnown leastSeenID

/-- The pong of any other node; nothing if it was not asked for. -/
def welcome (now : TimePoint) (source : UdpEndpoint) (sourceid : NodeID) :
    Option NodeTable :=
  match table.nodes.lookup sourceid with
  | some number => some (table.clearPending number)
  | none =>
      if source.address ∉ table.pubkDiscoverPings then none
      else
        let table := { table with
          pubkDiscoverPings := table.pubkDiscoverPings.erase source.address }
        some (if sourceid ∈ table.nodes then table
          else table.addNode now sourceid
            ⟨source.address, source.port, source.port⟩)

/-- The own endpoint as the sender of a pong sees it. -/
def updateEndpoint (destination : NodeIPEndpoint) : NodeTable :=
  let address :=
    if (!table.endpoint.isSet || !table.endpoint.isAllowed table.allowLocal) &&
        destination.address.isPublicAddress then
      destination.address
    else table.endpoint.address
  { table with
    endpoint := { table.endpoint with
      address
      udpPort := destination.udpPort } }

def onPong (now : TimePoint) (source : UdpEndpoint) (sourceid : NodeID)
    (destination : NodeIPEndpoint) : Option NodeTable :=
  let found := (table.evictions.lookup sourceid).filter fun eviction =>
    now < eviction.evictedTimePoint
  let table := match found with
    | some eviction => some (table.keepLeastSeen sourceid eviction)
    | none => table.welcome now source sourceid
  table.map fun table => table.updateEndpoint destination

def onNeighbours (now : TimePoint) (sourceid : NodeID)
    (neighbours : List Neighbour) : NodeTable :=
  let expected := table.findNodeTimeout.any fun asked =>
    asked.1 = sourceid ∧ now < asked.2 + c_reqTimeout
  let table := { table with
    findNodeTimeout := table.findNodeTimeout.filter fun asked =>
      asked.1 ≠ sourceid ∨ now < asked.2 + c_reqTimeout }
  if !expected then table
  else neighbours.foldl
    (fun table neighbour => table.addNode now neighbour.node neighbour.endpoint)
    table

/-- `onReceived` of a packet that was decoded, at a time of both clocks. -/
def onReceived (now : TimePoint) (seconds : UInt32) (source : UdpEndpoint)
    (packet : DiscoveryDatagram) : NodeTable :=
  if packet.ts < seconds then table
  else match packet.packet with
    | .pong pong =>
        match table.onPong now source packet.sourceid pong.destination with
        | none => table
        | some table => table.noteActiveNode now packet.sourceid source
    | .neighbours neighbours =>
        (table.onNeighbours now packet.sourceid
          neighbours.neighbours).noteActiveNode now packet.sourceid source
    | .findNode _ => table.noteActiveNode now packet.sourceid source
    | .pingNode ping =>
        (table.addNode now packet.sourceid { ping.source with
          address := source.address
          udpPort := source.port }).noteActiveNode now packet.sourceid source

/-! ## Runs -/

/-- What can happen to a table. -/
inductive Input where
  | addNode (id : NodeID) (endpoint : NodeIPEndpoint) (relation : NodeRelation)
  | noteActiveNode (id : NodeID) (endpoint : UdpEndpoint)
  | dropNode (number : Nat)
  | onReceived (seconds : UInt32) (source : UdpEndpoint)
    (packet : DiscoveryDatagram)
  | fire (position : Nat) (randNodeId : NodeID)
  | disconnect

/-- The handler of a timer. -/
def perform (now : TimePoint) (randNodeId : NodeID) : Task → NodeTable
  | .doCheckEvictions => table.checkEvictions now
  | .doDiscovery => table.doDiscover now randNodeId 0 []
  | .doDiscover node round tried => table.doDiscover now node round tried

/-- An input at a time; a timer does not fire before it is due, and nobody
holds an entry that lives no more. -/
def step (now : TimePoint) : Input → Option NodeTable
  | .addNode id endpoint relation =>
      some (table.addNode now id endpoint relation)
  | .noteActiveNode id endpoint => some (table.noteActiveNode now id endpoint)
  | .dropNode number =>
      if table.isLive number then some (table.dropNode number) else none
  | .onReceived seconds source packet =>
      some (table.onReceived now seconds source packet)
  | .fire position randNodeId =>
      match table.timers[position]? with
      | some timer =>
          if timer.due ≤ now then
            let table := table.perform now randNodeId timer.task
            some { table with timers := table.timers.eraseIdx position }
          else none
      | none => none
  | .disconnect => some { table with isOpen := false }

/-- A step at an input and its time. -/
def stepAt (table : NodeTable) (moment : TimePoint × Input) :
    Option NodeTable :=
  table.step moment.1 moment.2

def run : NodeTable → List (TimePoint × Input) → Option NodeTable :=
  Runs.run stepAt

/-- A condition on all the steps of a run. -/
def Throughout (condition : NodeTable → TimePoint × Input → Prop) :
    NodeTable → List (TimePoint × Input) → Prop :=
  Runs.Throughout stepAt condition

end

/-- The constructor; discovery is scheduled if the socket could be opened. -/
def construct (id : NodeID) (endpoint : NodeIPEndpoint)
    (allowLocal isOpen : Bool) (now : TimePoint) : NodeTable :=
  let table : NodeTable := { id, endpoint, allowLocal, isOpen }
  if isOpen then table.doDiscovery now else table

end NodeTable

end Aecmio
