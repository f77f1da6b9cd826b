import Aecmio.Chain.BlockHeader
import Aecmio.Logic.Runs

/-!
# Download of a snapshot

Fibers of one thread download a snapshot.  A fiber for each status message
checks a peer and its manifest and then offers the peer as free; one more
fiber takes free peers and asks each for a chunk.  Between two points at which
a fiber waits, nothing else runs.
-/

namespace Aecmio

/-- What, if anything, was last asked of a peer. -/
inductive WarpAsking where
  | state
  | blockHeaders
  | warpManifest
  | warpData
  | nothing
deriving DecidableEq

/-- `WarpPeerCapability`. -/
structure WarpPeer where
  asking : WarpAsking := .nothing
  protocolVersion : Nat := 0
  networkId : U256 := 0
  totalDifficulty : U256 := 0
  latestHash : H256 := zeroHash 32
  genesisHash : H256 := zeroHash 32
  snapshotHash : H256 := zeroHash 32
  snapshotNumber : U256 := 0
  enabled : Bool := true
  /-- `onDisconnect` was not called. -/
  connected : Bool := true
  /-- The session was not destroyed. -/
  session : Bool := true

/-- A promise; an exception that is set is a value of none. -/
structure FiberPromise where
  value : Option (Option Bytes) := none
  retrieved : Bool := false

/-- Where a fiber is that checks a peer. -/
inductive Validation where
  | begins
  | waitsForManifest
  | waitsForHeaders (manifestBytes : Bytes) (snapshotHash : H256)

/-- Where the fiber is that downloads chunks. -/
inductive DownloadStage where
  | notStarted
  | waitsForManifest
  | downloads
  | ended
deriving DecidableEq

/-- `WarpPeerObserver` with its fibers, the peers and the files it wrote. -/
structure WarpPeerObserver where
  hostProtocolVersion : Nat
  hostNetworkId : U256
  hostGenesisHash : H256
  daoForkBlock : Nat
  peers : Nat → WarpPeer := fun _ => {}
  manifest : Option Bytes := none
  syncingSnapshotHash : H256 := zeroHash 32
  neededChunks : List H256 := []
  /-- With the producers that wait for room in the channel. -/
  freePeers : List Nat := []
  manifests : Nat → Option FiberPromise := fun _ => none
  daoForkHeaders : Nat → Option FiberPromise := fun _ => none
  requestedChunks : Nat → Option H256 := fun _ => none
  validations : List (Nat × Validation) := []
  downloadFiber : DownloadStage := .notStarted
  manifestFile : Option Bytes := none
  files : List (H256 × Bytes) := []
  /-- An exception left a fiber. -/
  terminated : Bool := false

namespace WarpPeerObserver

open RLP

/-! ## What is read -/

def validateManifest (manifestBytes : Bytes) : Except RLPError Bool := do
  let manifestRlp ← construct manifestBytes .veryStrict
  if !isList manifestRlp then return false
  if (← itemCount manifestRlp) ≠ 1 then return false
  let manifest ← RLP.at_ manifestRlp 0
  return (← toInt .u256 (← RLP.at_ manifest 0)) = 2

def snapshotBlockHash (manifestBytes : Bytes) : Except RLPError H256 := do
  let manifestRlp ← construct manifestBytes .veryStrict
  let manifest ← RLP.at_ manifestRlp 0
  toHash 32 (← RLP.at_ manifest 5)

def verifyDaoChallengeResponse [Hashing] (daoForkBlock : Nat)
    (headerBytes : Bytes) : Except RLPError Bool := do
  let headerRlp ← construct headerBytes .veryStrict
  if (← itemCount headerRlp) ≠ 1 then return false
  let data ← RLP.at_ headerRlp 0
  let info ← BlockHeader.populate data (sha3 data)
  return info.number = daoForkBlock ∧
    info.extraData = [0x64, 0x61, 0x6f, 0x2d, 0x68, 0x61, 0x72, 0x64, 0x2d,
      0x66, 0x6f, 0x72, 0x6b]

/-- `toVector<h256>()`, which takes anything. -/
def toHashVector (view : Bytes) : Except RLPError (List H256) :=
  if isList view then do
    let _ ← itemCount view
    (← iterate view).mapM fun item => toHash 32 item .laissezFaire
  else .ok []

/-- What `downloadChunks` reads: the manifest and the hashes of its chunks. -/
def readManifest (manifestBytes : Bytes) :
    Except RLPError (Bytes × List H256) := do
  let manifestRlp ← construct manifestBytes .veryStrict
  let manifest ← RLP.at_ manifestRlp 0
  let _ ← toInt .u256 (← RLP.at_ manifest 0)
  let stateHashes ← toHashVector (← RLP.at_ manifest 1)
  let blockHashes ← toHashVector (← RLP.at_ manifest 2)
  let _ ← toHash 32 (← RLP.at_ manifest 3)
  let _ ← toInt .u256 (← RLP.at_ manifest 4)
  let _ ← toHash 32 (← RLP.at_ manifest 5)
  return (manifest, stateHashes ++ blockHashes)

/-- The chunk in a message with data; nothing if there is none. -/
def readData (view : Bytes) : Except RLPError (Option Bytes) := do
  if !isList view then return none
  if (← itemCount view) ≠ 1 then return none
  return some (← RLP.toString (← RLP.at_ view 0))

/-- A field that is read is assigned; an exception leaves the peer. -/
def assign {α : Type} (field : Except RLPError α)
    (change : α → WarpPeer → WarpPeer) : EStateM RLPError WarpPeer Unit :=
  match field with
  | .ok value => modify (change value)
  | .error error => throw error

/-- The fields of a status, assigned one after another. -/
def readStatusFields (view : Bytes) : EStateM RLPError WarpPeer Unit := do
  assign (RLP.at_ view 0 >>= fun item => toInt .uint32 item)
    fun protocolVersion peer => { peer with protocolVersion }
  assign (RLP.at_ view 1 >>= fun item => toInt .u256 item)
    fun networkId peer => { peer with networkId := BitVec.ofNat 256 networkId }
  assign (RLP.at_ view 2 >>= fun item => toInt .u256 item)
    fun totalDifficulty peer =>
      { peer with totalDifficulty := BitVec.ofNat 256 totalDifficulty }
  assign (RLP.at_ view 3 >>= fun item => toHash 32 item)
    fun latestHash peer => { peer with latestHash }
  assign (RLP.at_ view 4 >>= fun item => toHash 32 item)
    fun genesisHash peer => { peer with genesisHash }
  assign (RLP.at_ view 5 >>= fun item => toHash 32 item)
    fun snapshotHash peer => { peer with snapshotHash }
  assign (RLP.at_ view 6 >>= fun item => toInt .u256 item)
    fun snapshotNumber peer =>
      { peer with snapshotNumber := BitVec.ofNat 256 snapshotNumber }

def readStatus (view : Bytes) : EStateM RLPError WarpPeer Unit :=
  match itemCount view with
  | .error error => throw error
  | .ok count =>
      if count < 7 then throw .badRLP else readStatusFields view

/-! ## Peers -/

variable (observer : WarpPeerObserver)

def setPeer (peer : Nat) (change : WarpPeer → WarpPeer) : WarpPeerObserver :=
  { observer with
    peers := Function.update observer.peers peer (change (observer.peers peer)) }

def setAsking (peer : Nat) (asking : WarpAsking) : WarpPeerObserver :=
  observer.setPeer peer fun state => { state with asking }

def disable (peer : Nat) : WarpPeerObserver :=
  observer.setPeer peer fun state => { state with enabled := false }

/-- A weak pointer to a peer gives it as long as its session or a fiber that
checks it has it. -/
def isAlive (peer : Nat) : Bool :=
  (observer.peers peer).session ||
    observer.validations.any fun fiber => fiber.1 = peer

def terminate : WarpPeerObserver := { observer with terminated := true }

/-! ## Handlers of messages -/

def onPeerStatus (peer : Nat) : WarpPeerObserver :=
  { observer with
    validations := observer.validations ++ [(peer, .begins)]
    downloadFiber :=
      if observer.downloadFiber = .notStarted then .waitsForManifest
      else observer.downloadFiber }

/-- `set_value`; a promise that has a value throws. -/
def setValue (promise : Option FiberPromise) (value : Option Bytes) :
    Option FiberPromise :=
  let promise := promise.getD {}
  if promise.value.isSome then some promise
  else some { promise with value := some value }

def onPeerManifest (peer : Nat) (view : Bytes) : WarpPeerObserver :=
  { observer with
    manifests := Function.update observer.manifests peer
      (setValue (observer.manifests peer) (some view)) }

def onPeerBlockHeaders (peer : Nat) (view : Bytes) : WarpPeerObserver :=
  { observer with
    daoForkHeaders := Function.update observer.daoForkHeaders peer
      (setValue (observer.daoForkHeaders peer) (some view)) }

def onPeerData [Hashing] (peer : Nat) (view : Bytes) : WarpPeerObserver :=
  match readData view with
  | .ok (some data) =>
      match observer.requestedChunks peer with
      | none => observer
      | some askedHash =>
          let observer := { observer with
            requestedChunks :=
              Function.update observer.requestedChunks peer none }
          let observer :=
            if sha3 data = askedHash then
              { observer with files := observer.files ++ [(askedHash, data)] }
            else { observer with
              neededChunks := observer.neededChunks ++ [askedHash] }
          { observer with freePeers := observer.freePeers ++ [peer] }
  | _ => observer

/-- `set_exception` on a promise that there is. -/
def setException (promise : Option FiberPromise) : Option FiberPromise :=
  promise.bind fun promise => setValue (some promise) none

def onPeerDisconnect (peer : Nat) (asking : WarpAsking) : WarpPeerObserver :=
  match asking with
  | .warpManifest => { observer with
      manifests := Function.update observer.manifests peer
        (setException (observer.manifests peer)) }
  | .blockHeaders => { observer with
      daoForkHeaders := Function.update observer.daoForkHeaders peer
        (setException (observer.daoForkHeaders peer)) }
  | .warpData =>
      match observer.requestedChunks peer with
      | none => observer
      | some hash => { observer with
          neededChunks := observer.neededChunks ++ [hash]
          requestedChunks :=
            Function.update observer.requestedChunks peer none }
  | _ => observer

inductive WarpMessage where
  | status (view : Bytes)
  | manifest (view : Bytes)
  | blockHeaders (view : Bytes)
  | data (view : Bytes)
  /-- A request, which is answered or not. -/
  | request

/-- `WarpPeerCapability::interpret`. -/
def interpret [Hashing] (peer : Nat) : WarpMessage → WarpPeerObserver
  | .status view =>
      match (readStatus view).run (observer.peers peer) with
      | .ok _ state =>
          ((observer.setPeer peer fun _ => state).setAsking peer
            .nothing).onPeerStatus peer
      | .error _ state => observer.setPeer peer fun _ => state
  | .manifest view =>
      (observer.setAsking peer .nothing).onPeerManifest peer view
  | .blockHeaders view =>
      (observer.setAsking peer .nothing).onPeerBlockHeaders peer view
  | .data view => (observer.setAsking peer .nothing).onPeerData peer view
  | .request => observer

/-- `WarpPeerCapability::onDisconnect`. -/
def disconnect (peer : Nat) : WarpPeerObserver :=
  (observer.setPeer peer fun state =>
    { state with connected := false }).onPeerDisconnect peer
      (observer.peers peer).asking

/-! ## The fibers that check peers -/

/-- Whether a status is valid, and the peer disabled if it is not. -/
def validateStatus (peer : Nat) : Bool × WarpPeerObserver :=
  let state := observer.peers peer
  if !state.session then (false, observer)
  else if state.genesisHash ≠ observer.hostGenesisHash ∨
      state.protocolVersion ≠ observer.hostProtocolVersion ∨
      state.networkId ≠ observer.hostNetworkId ∨
      (state.asking ≠ .state ∧ state.asking ≠ .nothing) then
    (false, observer.disable peer)
  else (true, observer)

/-- The fiber is at another place, or it is done. -/
def setValidation (position peer : Nat) (stage : Option Validation) :
    WarpPeerObserver :=
  { observer with
    validations := match stage with
      | some stage => observer.validations.set position (peer, stage)
      | none => observer.validations.eraseIdx position }

/-- `get_future`; nothing if the future was taken before. -/
def getFuture (promise : Option FiberPromise) : Option FiberPromise :=
  let promise := promise.getD {}
  if promise.retrieved then none else some { promise with retrieved := true }

/-- `requestManifest` and the wait for the response. -/
def askManifest (position peer : Nat) : WarpPeerObserver :=
  let observer := observer.setAsking peer .warpManifest
  match getFuture (observer.manifests peer) with
  | none => observer.terminate
  | some promise =>
      { observer with
        manifests := Function.update observer.manifests peer (some promise)
        }.setValidation position peer (some .waitsForManifest)

/-- `requestBlockHeaders` and the wait for the response. -/
def askHeaders (position peer : Nat) (manifestBytes : Bytes)
    (snapshotHash : H256) : WarpPeerObserver :=
  let observer := observer.setAsking peer .blockHeaders
  match getFuture (observer.daoForkHeaders peer) with
  | none => observer.terminate
  | some promise =>
      { observer with
        daoForkHeaders :=
          Function.update observer.daoForkHeaders peer (some promise)
        }.setValidation position peer
          (some (.waitsForHeaders manifestBytes snapshotHash))

/-- The snapshot of a peer is taken.  There is one only. -/
def acceptSnapshot (position peer : Nat) (manifestBytes : Bytes)
    (snapshotHash : H256) : WarpPeerObserver :=
  if observer.manifest.isSome then observer.terminate
  else { observer with
    syncingSnapshotHash := snapshotHash
    manifest := some manifestBytes
    freePeers := observer.freePeers ++ [peer] }.setValidation position peer none

/-- What becomes of a manifest. -/
def onManifest (position peer : Nat) (manifestBytes : Bytes) :
    WarpPeerObserver :=
  match validateManifest manifestBytes with
  | .error _ => observer.terminate
  | .ok false => (observer.disable peer).setValidation position peer none
  | .ok true =>
      match snapshotBlockHash manifestBytes with
      | .error _ => observer.terminate
      | .ok snapshotHash =>
          if observer.syncingSnapshotHash ≠ zeroHash 32 then
            if snapshotHash = observer.syncingSnapshotHash then
              { observer with freePeers := observer.freePeers ++ [peer]
                }.setValidation position peer none
            else (observer.disable peer).setValidation position peer none
          else if observer.daoForkBlock ≠ 0 then
            observer.askHeaders position peer manifestBytes snapshotHash
          else
            observer.acceptSnapshot position peer manifestBytes snapshotHash

/-- What becomes of the header of the fork. -/
def onHeaders [Hashing] (position peer : Nat) (manifestBytes : Bytes)
    (snapshotHash : H256) (headerBytes : Bytes) : WarpPeerObserver :=
  match verifyDaoChallengeResponse observer.daoForkBlock headerBytes with
  | .error _ => observer.terminate
  | .ok false => (observer.disable peer).setValidation position peer none
  | .ok true =>
      observer.acceptSnapshot position peer manifestBytes snapshotHash

/-- A fiber that checks a peer goes on; nothing if it has to wait. -/
def resumeValidation [Hashing] (position : Nat) : Option WarpPeerObserver :=
  match observer.validations[position]? with
  | none => none
  | some (peer, .begins) =>
      match observer.validateStatus peer with
      | (false, observer) => some (observer.setValidation position peer none)
      | (true, observer) => some (observer.askManifest position peer)
  | some (peer, .waitsForManifest) =>
      match observer.manifests peer with
      | none => some observer.terminate
      | some { value := none, .. } => none
      | some { value := some response, .. } =>
          let observer := { observer with
            manifests := Function.update observer.manifests peer none }
          match response.getD [] with
          | [] => some (observer.setValidation position peer none)
          | manifestBytes =>
              some (observer.onManifest position peer manifestBytes)
  | some (peer, .waitsForHeaders manifestBytes snapshotHash) =>
      match observer.daoForkHeaders peer with
      | none => some observer.terminate
      | some { value := none, .. } => none
      | some { value := some response, .. } =>
          let observer := { observer with
            daoForkHeaders := Function.update observer.daoForkHeaders peer none }
          match response.getD [] with
          | [] => some (observer.setValidation position peer none)
          | headerBytes =>
              some (observer.onHeaders position peer manifestBytes snapshotHash
                headerBytes)

/-! ## The fiber that downloads -/

/-- The loop ends when no chunk is needed. -/
def nextRound : WarpPeerObserver :=
  { observer with
    downloadFiber :=
      if observer.neededChunks.isEmpty then .ended else .downloads }

/-- The manifest is taken. -/
def takeManifest (manifestBytes : Bytes) : WarpPeerObserver :=
  match readManifest manifestBytes with
  | .error _ => observer.terminate
  | .ok (manifest, hashes) =>
      { observer with
        manifestFile := some manifest
        neededChunks := hashes }.nextRound

/-- A free peer is asked for the first chunk that is needed. -/
def requestChunk (peer : Nat) (chunkHash : H256) (others : List H256) :
    WarpPeerObserver :=
  let observer := observer.setAsking peer .warpData
  { observer with
    requestedChunks :=
      Function.update observer.requestedChunks peer (some chunkHash)
    neededChunks := others }.nextRound

/-- The fiber that downloads goes on; nothing if it has to wait. -/
def resumeDownload : Option WarpPeerObserver :=
  match observer.downloadFiber with
  | .notStarted => none
  | .waitsForManifest => observer.manifest.map observer.takeManifest
  | .downloads =>
      match observer.freePeers, observer.neededChunks with
      | peer :: freePeers, chunkHash :: others =>
          let rest := { observer with freePeers }
          if observer.isAlive peer then
            some (rest.requestChunk peer chunkHash others)
          else some rest
      | _, _ => none
  | .ended => none

/-! ## Runs -/

inductive WarpEvent where
  | message (peer : Nat) (message : WarpMessage)
  | disconnect (peer : Nat)
  | destroySession (peer : Nat)
  | resumeValidation (position : Nat)
  | resumeDownload

/-- An event; nothing if it is not possible. -/
def step [Hashing] (observer : WarpPeerObserver) (event : WarpEvent) :
    Option WarpPeerObserver :=
  if observer.terminated then none
  else match event with
    | .message peer message =>
        let state := observer.peers peer
        if state.connected && state.enabled then
          some (observer.interpret peer message)
        else none
    | .disconnect peer =>
        if (observer.peers peer).connected then some (observer.disconnect peer)
        else none
    | .destroySession peer =>
        if (observer.peers peer).connected then none
        else some (observer.setPeer peer fun state =>
          { state with session := false })
    | .resumeValidation position => observer.resumeValidation position
    | .resumeDownload => observer.resumeDownload

end WarpPeerObserver

end Aecmio
