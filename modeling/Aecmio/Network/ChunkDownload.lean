import Aecmio.Network.Warp

/-!
# Chunks of a snapshot that is downloaded

A chunk moves between the queue of needed chunks, a request to a peer and the
disk.  What a step may do to a chunk that a peer is asked for is said once,
as what the step leaves alone of all other peers; with it, a run forgets no
chunk if each of its steps is careful with the chunks that are asked for.
-/

namespace Aecmio

namespace WarpPeerObserver

/-- The observer and the peers before any message. -/
def construct (hostProtocolVersion : Nat) (hostNetworkId : U256)
    (hostGenesisHash : H256) (daoForkBlock : Nat) : WarpPeerObserver :=
  { hostProtocolVersion, hostNetworkId, hostGenesisHash, daoForkBlock }

def run [Hashing] (observer : WarpPeerObserver) (events : List WarpEvent) :
    Option WarpPeerObserver :=
  Runs.run step observer events

/-! ## Where a chunk is -/

/-- A peer is asked for a chunk, and can still answer. -/
def IsAsked (observer : WarpPeerObserver) (peer : Nat) (hash : H256) : Prop :=
  observer.requestedChunks peer = some hash ∧
    (observer.peers peer).asking = .warpData ∧
    (observer.peers peer).connected = true

/-- A chunk is in the queue, and the fiber still takes chunks from it. -/
def IsNeeded (observer : WarpPeerObserver) (hash : H256) : Prop :=
  hash ∈ observer.neededChunks ∧ observer.downloadFiber ≠ .ended

def IsSaved (observer : WarpPeerObserver) (hash : H256) : Prop :=
  hash ∈ observer.files.map Prod.fst

def Kept (observer : WarpPeerObserver) (hash : H256) : Prop :=
  observer.IsSaved hash ∨ (∃ peer, observer.IsAsked peer hash) ∨
    observer.IsNeeded hash

/-- A chunk is kept whatever becomes of a request to this peer. -/
def KeptWithout (observer : WarpPeerObserver) (peer : Nat) (hash : H256) :
    Prop :=
  observer.IsSaved hash ∨ (∃ other ≠ peer, observer.IsAsked other hash) ∨
    observer.IsNeeded hash

/-- The fiber that downloads took the manifest. -/
def ManifestTaken (observer : WarpPeerObserver) : Prop :=
  observer.downloadFiber = .downloads ∨ observer.downloadFiber = .ended

/-- Every chunk of the manifest is kept, once the manifest is taken. -/
def Unforgotten (observer : WarpPeerObserver) : Prop :=
  observer.ManifestTaken → ∃ manifestBytes manifest hashes,
    observer.manifest = some manifestBytes ∧
      readManifest manifestBytes = .ok (manifest, hashes) ∧
      ∀ hash ∈ hashes, observer.Kept hash

/-! ## Steps that are careful -/

/-- A message does not take from its peer the chunk that the peer is asked
for: it leaves the peer asked, or it brings the chunk, or something else while
the fiber still takes chunks. -/
def CarefulMessage [Hashing] (observer : WarpPeerObserver) (peer : Nat)
    (hash : H256) : WarpMessage → Prop
  | .status view =>
      ∃ error state, (readStatus view).run (observer.peers peer) =
        .error error state
  | .manifest _ => False
  | .blockHeaders _ => False
  | .data view => ∃ data, readData view = .ok (some data) ∧
      (sha3 data = hash ∨ observer.downloadFiber ≠ .ended)
  | .request => True

/-- A peer whose manifest came is about to be asked for the header of the
fork. -/
def WillAskHeaders (observer : WarpPeerObserver) (peer : Nat) : Prop :=
  observer.syncingSnapshotHash = zeroHash 32 ∧ observer.daoForkBlock ≠ 0 ∧
    ∃ promise manifestBytes snapshotHash,
      observer.manifests peer = some promise ∧
      promise.value = some (some manifestBytes) ∧ manifestBytes ≠ [] ∧
      validateManifest manifestBytes = .ok true ∧
      snapshotBlockHash manifestBytes = .ok snapshotHash

/-- A step forgets no chunk that a peer is asked for.  Where the fiber asks a
peer for one more chunk, that peer is connected and is not asked already. -/
def Careful [Hashing] (observer : WarpPeerObserver) : WarpEvent → Prop
  | .message peer message => ∀ hash, observer.IsAsked peer hash →
      observer.KeptWithout peer hash ∨
        observer.CarefulMessage peer hash message
  | .disconnect peer => ∀ hash, observer.IsAsked peer hash →
      observer.KeptWithout peer hash ∨ observer.downloadFiber ≠ .ended
  | .destroySession _ => True
  | .resumeValidation position => ∀ peer hash,
      observer.validations[position]? = some (peer, .waitsForManifest) →
      observer.IsAsked peer hash →
      observer.KeptWithout peer hash ∨ ¬ observer.WillAskHeaders peer
  | .resumeDownload => ∀ peer freePeers chunkHash others,
      observer.downloadFiber = .downloads →
      observer.freePeers = peer :: freePeers →
      observer.neededChunks = chunkHash :: others →
      observer.isAlive peer = true →
      (∀ hash, observer.IsAsked peer hash → observer.KeptWithout peer hash) ∧
        ((observer.peers peer).connected = true ∨
          { observer with neededChunks := others }.KeptWithout peer chunkHash)

/-! ## What a step leaves alone -/

/-- What a step leaves alone that concerns one peer only. -/
structure Alike (peer : Nat) (observer after : WarpPeerObserver) : Prop where
  taken : after.ManifestTaken → observer.ManifestTaken
  ended : after.downloadFiber = .ended → observer.downloadFiber = .ended
  manifest : ∀ {manifestBytes}, observer.manifest = some manifestBytes →
    after.manifest = some manifestBytes
  files : ∀ {hash}, observer.IsSaved hash → after.IsSaved hash
  neededChunks : ∀ {hash}, hash ∈ observer.neededChunks →
    hash ∈ after.neededChunks
  requestedChunks : ∀ {other}, other ≠ peer →
    after.requestedChunks other = observer.requestedChunks other
  peers : ∀ {other}, other ≠ peer → after.peers other = observer.peers other

namespace Alike

variable {peer : Nat} {observer middle after : WarpPeerObserver} {hash : H256}

theorem trans (first : Alike peer observer middle)
    (second : Alike peer middle after) : Alike peer observer after where
  taken taken := first.taken (second.taken taken)
  ended ended := first.ended (second.ended ended)
  manifest isManifest := second.manifest (first.manifest isManifest)
  files saved := second.files (first.files saved)
  neededChunks needed := second.neededChunks (first.neededChunks needed)
  requestedChunks differ :=
    (second.requestedChunks differ).trans (first.requestedChunks differ)
  peers differ := (second.peers differ).trans (first.peers differ)

theorem isAsked (alike : Alike peer observer after) {other : Nat}
    (differ : other ≠ peer) (asked : observer.IsAsked other hash) :
    after.IsAsked other hash := by
  obtain ⟨requested, asking, connected⟩ := asked
  rw [← alike.peers differ] at asking connected
  rw [← alike.requestedChunks differ] at requested
  exact ⟨requested, asking, connected⟩

theorem isNeeded (alike : Alike peer observer after)
    (needed : observer.IsNeeded hash) : after.IsNeeded hash := by
  constructor
  · exact alike.neededChunks needed.1
  · intro ended
    exact needed.2 (alike.ended ended)

theorem kept (alike : Alike peer observer after)
    (without : observer.KeptWithout peer hash) : after.Kept hash := by
  rcases without with saved | ⟨other, differ, asked⟩ | needed
  · exact .inl (alike.files saved)
  · exact .inr (.inl ⟨other, alike.isAsked differ asked⟩)
  · exact .inr (.inr (alike.isNeeded needed))

/-- Nothing is forgotten if the chunk is not that the peer is asked for. -/
theorem unforgotten (alike : Alike peer observer after)
    (unforgotten : observer.Unforgotten)
    (asked : ∀ hash, observer.IsAsked peer hash →
      observer.KeptWithout peer hash ∨ after.Kept hash) :
    after.Unforgotten := by
  intro taken
  obtain ⟨manifestBytes, manifest, hashes, isManifest, read, kept⟩ :=
    unforgotten (alike.taken taken)
  refine ⟨manifestBytes, manifest, hashes, alike.manifest isManifest, read, ?_⟩
  intro hash listed
  rcases kept hash listed with saved | ⟨other, isAsked⟩ | needed
  · exact .inl (alike.files saved)
  · by_cases same : other = peer
    · rw [same] at isAsked
      rcases asked hash isAsked with without | kept
      · exact alike.kept without
      · exact kept
    · exact .inr (.inl ⟨other, alike.isAsked same isAsked⟩)
  · exact .inr (.inr (alike.isNeeded needed))

end Alike

namespace Alike

variable {peer other : Nat} {observer after : WarpPeerObserver}

/-- The fields that say where chunks are stay, of all peers. -/
theorem of_eq (manifest : after.manifest = observer.manifest)
    (downloadFiber : after.downloadFiber = observer.downloadFiber)
    (files : after.files = observer.files)
    (neededChunks : after.neededChunks = observer.neededChunks)
    (requestedChunks : after.requestedChunks = observer.requestedChunks)
    (peers : after.peers = observer.peers) : Alike peer observer after where
  taken taken := by
    rw [ManifestTaken, downloadFiber] at taken
    exact taken
  ended ended := downloadFiber.symm.trans ended
  manifest isManifest := manifest.trans isManifest
  files saved := by
    rw [IsSaved, files]
    exact saved
  neededChunks needed := by
    rw [neededChunks]
    exact needed
  requestedChunks _ := congrFun requestedChunks _
  peers _ := congrFun peers _

theorem terminate : Alike peer observer observer.terminate := by
  apply of_eq <;> rfl

theorem setValidation (position : Nat) (stage : Option Validation) :
    Alike peer observer (observer.setValidation position other stage) := by
  apply of_eq <;> rfl

theorem setPeer (change : WarpPeer → WarpPeer) :
    Alike peer observer (observer.setPeer peer change) where
  taken taken := taken
  ended ended := ended
  manifest isManifest := isManifest
  files saved := saved
  neededChunks needed := needed
  requestedChunks _ := rfl
  peers differ := Function.update_of_ne differ _ _

end Alike

/-! ## Messages -/

section Messages

variable {observer : WarpPeerObserver} {peer : Nat} {hash : H256}

@[simp]
theorem setPeer_self (change : WarpPeer → WarpPeer) :
    (observer.setPeer peer change).peers peer =
      change (observer.peers peer) :=
  Function.update_self ..

/-- A peer whose asking and whose connection stay is asked as before. -/
theorem IsAsked.setPeer {change : WarpPeer → WarpPeer}
    (asked : observer.IsAsked peer hash)
    (asking : (change (observer.peers peer)).asking =
      (observer.peers peer).asking)
    (connected : (change (observer.peers peer)).connected =
      (observer.peers peer).connected) :
    (observer.setPeer peer change).IsAsked peer hash := by
  refine ⟨asked.1, ?_, ?_⟩
  · rw [setPeer_self]
    exact asking.trans asked.2.1
  · rw [setPeer_self]
    exact connected.trans asked.2.2

/-- What reads a status leaves alone. -/
def LeavesAsking {α : Type} (action : EStateM RLPError WarpPeer α) : Prop :=
  ∀ state, match action state with
    | .ok _ state' =>
        state'.asking = state.asking ∧ state'.connected = state.connected
    | .error _ state' =>
        state'.asking = state.asking ∧ state'.connected = state.connected

namespace LeavesAsking

theorem bind {α β : Type} {action : EStateM RLPError WarpPeer α}
    {rest : α → EStateM RLPError WarpPeer β} (first : LeavesAsking action)
    (second : ∀ value, LeavesAsking (rest value)) :
    LeavesAsking (action >>= rest) := by
  intro state
  have leaves := first state
  show match EStateM.bind action rest state with
    | .ok _ state' => _
    | .error _ state' => _
  unfold EStateM.bind
  cases ran : action state with
  | ok value middle =>
      rw [ran] at leaves
      have later := second value middle
      rw [leaves.1, leaves.2] at later
      exact later
  | error error middle =>
      rw [ran] at leaves
      exact leaves

theorem throw {α : Type} (error : RLPError) :
    LeavesAsking (throw error : EStateM RLPError WarpPeer α) := by
  intro state
  exact ⟨rfl, rfl⟩

theorem assign {α : Type} (field : Except RLPError α)
    {change : α → WarpPeer → WarpPeer}
    (leaves : ∀ value state, (change value state).asking = state.asking ∧
      (change value state).connected = state.connected) :
    LeavesAsking (WarpPeerObserver.assign field change) := by
  intro state
  cases field with
  | ok value => exact leaves value state
  | error error => exact ⟨rfl, rfl⟩

theorem readStatusFields (view : Bytes) :
    LeavesAsking (WarpPeerObserver.readStatusFields view) := by
  have unit {action rest : EStateM RLPError WarpPeer Unit}
      (first : LeavesAsking action) (second : LeavesAsking rest) :
      LeavesAsking (action >>= fun _ => rest) :=
    first.bind fun _ => second
  unfold WarpPeerObserver.readStatusFields
  refine unit ?_ (unit ?_ (unit ?_ (unit ?_ (unit ?_ (unit ?_ ?_))))) <;>
    exact assign _ fun _ _ => ⟨rfl, rfl⟩

theorem readStatus (view : Bytes) :
    LeavesAsking (WarpPeerObserver.readStatus view) := by
  unfold WarpPeerObserver.readStatus
  split
  · exact throw _
  · split
    · exact throw _
    · exact readStatusFields view

end LeavesAsking

/-- A status that is not read leaves its peer asked. -/
theorem IsAsked.status_error {view : Bytes} {error : RLPError}
    {state : WarpPeer} (asked : observer.IsAsked peer hash)
    (read : readStatus view (observer.peers peer) = .error error state) :
    (observer.setPeer peer fun _ => state).IsAsked peer hash := by
  have leaves := LeavesAsking.readStatus view (observer.peers peer)
  rw [read] at leaves
  exact asked.setPeer leaves.1 leaves.2

theorem onPeerStatus_alike :
    Alike peer observer (observer.onPeerStatus peer) where
  taken taken := by
    simp only [ManifestTaken, onPeerStatus] at taken ⊢
    split at taken
    · simp at taken
    · exact taken
  ended ended := by
    simp only [onPeerStatus] at ended
    split at ended
    · cases ended
    · exact ended
  manifest isManifest := isManifest
  files saved := saved
  neededChunks needed := needed
  requestedChunks _ := rfl
  peers _ := rfl

theorem onPeerManifest_alike {view : Bytes} :
    Alike peer observer (observer.onPeerManifest peer view) := by
  apply Alike.of_eq <;> rfl

theorem onPeerBlockHeaders_alike {view : Bytes} :
    Alike peer observer (observer.onPeerBlockHeaders peer view) := by
  apply Alike.of_eq <;> rfl

/-- What was asked of a peer came, or something else. -/
def settle [Hashing] (observer : WarpPeerObserver) (peer : Nat)
    (askedHash : H256) (data : Bytes) : WarpPeerObserver :=
  { observer with
    requestedChunks := Function.update observer.requestedChunks peer none
    files := if sha3 data = askedHash then
      observer.files ++ [(askedHash, data)] else observer.files
    neededChunks := if sha3 data = askedHash then observer.neededChunks
      else observer.neededChunks ++ [askedHash]
    freePeers := observer.freePeers ++ [peer] }

theorem onPeerData_some [Hashing] {view data : Bytes}
    (read : readData view = .ok (some data))
    (asked : observer.requestedChunks peer = some hash) :
    observer.onPeerData peer view = observer.settle peer hash data := by
  unfold onPeerData settle
  rw [read]
  simp only [asked]
  split <;> rfl

theorem settle_alike [Hashing] {data : Bytes} :
    Alike peer observer (observer.settle peer hash data) where
  taken taken := taken
  ended ended := ended
  manifest isManifest := isManifest
  files saved := by
    simp only [settle, IsSaved]
    split
    · rw [List.map_append]
      exact List.mem_append_left _ saved
    · exact saved
  neededChunks needed := by
    simp only [settle]
    split
    · exact needed
    · exact List.mem_append_left _ needed
  requestedChunks differ := Function.update_of_ne differ _ _
  peers _ := rfl

/-- The chunk is saved, or it is needed again. -/
theorem settle_kept [Hashing] {data : Bytes}
    (right : sha3 data = hash ∨ observer.downloadFiber ≠ .ended) :
    (observer.settle peer hash data).Kept hash := by
  by_cases same : sha3 data = hash
  · apply Or.inl
    simp [IsSaved, settle, same]
  · have running := right.resolve_left same
    apply Or.inr
    apply Or.inr
    constructor
    · simp [settle, same]
    · exact running

theorem onPeerData_alike [Hashing] {view : Bytes} :
    Alike peer observer (observer.onPeerData peer view) := by
  cases requested : observer.requestedChunks peer with
  | none =>
      unfold onPeerData
      split
      · rw [requested]
        apply Alike.of_eq <;> rfl
      · apply Alike.of_eq <;> rfl
  | some hash =>
      cases read : readData view with
      | ok data =>
          cases data with
          | some data =>
              rw [onPeerData_some read requested]
              exact settle_alike
          | none =>
              unfold onPeerData
              rw [read]
              apply Alike.of_eq <;> rfl
      | error error =>
          unfold onPeerData
          rw [read]
          apply Alike.of_eq <;> rfl

theorem interpret_alike [Hashing] (message : WarpMessage) :
    Alike peer observer (observer.interpret peer message) := by
  cases message with
  | status view =>
      simp only [interpret]
      split
      · exact ((Alike.setPeer _).trans (Alike.setPeer _)).trans
          onPeerStatus_alike
      · exact Alike.setPeer _
  | manifest view => exact (Alike.setPeer _).trans onPeerManifest_alike
  | blockHeaders view =>
      exact (Alike.setPeer _).trans onPeerBlockHeaders_alike
  | data view => exact (Alike.setPeer _).trans onPeerData_alike
  | request => apply Alike.of_eq <;> rfl

/-- A careful message keeps the chunk that its peer is asked for. -/
theorem interpret_kept [Hashing] {message : WarpMessage}
    (asked : observer.IsAsked peer hash)
    (careful : observer.CarefulMessage peer hash message) :
    (observer.interpret peer message).Kept hash := by
  cases message with
  | status view =>
      obtain ⟨error, state, read⟩ := careful
      simp only [interpret]
      rw [read]
      exact .inr (.inl ⟨peer, asked.status_error read⟩)
  | manifest view => exact absurd careful id
  | blockHeaders view => exact absurd careful id
  | data view =>
      obtain ⟨data, read, right⟩ := careful
      have requested : (observer.setAsking peer .nothing).requestedChunks peer =
          some hash := asked.1
      show ((observer.setAsking peer .nothing).onPeerData peer view).Kept hash
      rw [onPeerData_some read requested]
      exact settle_kept right
  | request => exact .inr (.inl ⟨peer, asked⟩)

theorem Unforgotten.message [Hashing] {message : WarpMessage}
    (unforgotten : observer.Unforgotten)
    (careful : observer.Careful (.message peer message)) :
    (observer.interpret peer message).Unforgotten := by
  apply (interpret_alike message).unforgotten unforgotten
  intro hash asked
  exact (careful hash asked).imp_right fun careful =>
    interpret_kept asked careful

/-! ## A peer that is gone -/

theorem onPeerDisconnect_alike (asking : WarpAsking) :
    Alike peer observer (observer.onPeerDisconnect peer asking) := by
  cases asking with
  | warpData =>
      simp only [onPeerDisconnect]
      split
      · apply Alike.of_eq <;> rfl
      · exact {
          taken := id
          ended := id
          manifest := id
          files := id
          neededChunks := fun needed => List.mem_append_left _ needed
          requestedChunks := fun differ => Function.update_of_ne differ _ _
          peers := fun _ => rfl }
  | _ => apply Alike.of_eq <;> rfl

/-- The chunk is needed again. -/
theorem disconnect_kept (asked : observer.IsAsked peer hash)
    (running : observer.downloadFiber ≠ .ended) :
    (observer.disconnect peer).Kept hash := by
  apply Or.inr
  apply Or.inr
  obtain ⟨requested, asking, -⟩ := asked
  have requested' : (observer.setPeer peer fun state =>
      { state with connected := false }).requestedChunks peer = some hash :=
    requested
  unfold disconnect
  rw [asking]
  simp only [onPeerDisconnect, requested']
  constructor
  · exact List.mem_append_right _ List.mem_cons_self
  · exact running

theorem Unforgotten.disconnect [Hashing] (unforgotten : observer.Unforgotten)
    (careful : observer.Careful (.disconnect peer)) :
    (observer.disconnect peer).Unforgotten := by
  have alike : Alike peer observer (observer.disconnect peer) :=
    (Alike.setPeer _).trans (onPeerDisconnect_alike _)
  apply alike.unforgotten unforgotten
  intro hash asked
  exact (careful hash asked).imp_right fun running =>
    disconnect_kept asked running

end Messages

/-! ## The fibers that check peers -/

/-- A step of one peer that leaves it asked. -/
structure Harmless (peer : Nat) (observer after : WarpPeerObserver) : Prop
    extends Alike peer observer after where
  asked : ∀ {hash}, observer.IsAsked peer hash → after.IsAsked peer hash

section Validations

variable {observer middle after : WarpPeerObserver} {position peer : Nat}
  {hash : H256}

namespace Harmless

theorem of_eq (manifest : after.manifest = observer.manifest)
    (downloadFiber : after.downloadFiber = observer.downloadFiber)
    (files : after.files = observer.files)
    (neededChunks : after.neededChunks = observer.neededChunks)
    (requestedChunks : after.requestedChunks = observer.requestedChunks)
    (peers : after.peers = observer.peers) : Harmless peer observer after where
  toAlike := .of_eq manifest downloadFiber files neededChunks requestedChunks
    peers
  asked asked := by
    rw [IsAsked, requestedChunks, peers]
    exact asked

theorem trans (first : Harmless peer observer middle)
    (second : Harmless peer middle after) : Harmless peer observer after where
  toAlike := first.toAlike.trans second.toAlike
  asked asked := second.asked (first.asked asked)

theorem refl : Harmless peer observer observer := by
  apply of_eq <;> rfl

theorem terminate : Harmless peer observer observer.terminate := by
  apply of_eq <;> rfl

theorem setValidation {stage : Option Validation} :
    Harmless peer observer (observer.setValidation position peer stage) := by
  apply of_eq <;> rfl

theorem disable : Harmless peer observer (observer.disable peer) where
  toAlike := .setPeer _
  asked asked := asked.setPeer rfl rfl

theorem unforgotten (harmless : Harmless peer observer after)
    (unforgotten : observer.Unforgotten) : after.Unforgotten := by
  apply harmless.toAlike.unforgotten unforgotten
  intro hash asked
  exact .inr (.inr (.inl ⟨peer, harmless.asked asked⟩))

end Harmless

theorem validateStatus_harmless {valid : Bool}
    (validated : observer.validateStatus peer = (valid, after)) :
    Harmless peer observer after := by
  simp only [validateStatus] at validated
  split at validated
  · cases validated
    exact .refl
  · split at validated
    · cases validated
      exact .disable
    · cases validated
      exact .refl

/-- A peer with a valid status is not asked for data. -/
theorem validateStatus_true
    (validated : observer.validateStatus peer = (true, after)) :
    after = observer ∧ ∀ hash, ¬ observer.IsAsked peer hash := by
  simp only [validateStatus] at validated
  split at validated
  · cases validated
  · split at validated
    · cases validated
    · rename_i valid
      cases validated
      constructor
      · rfl
      · intro hash asked
        apply valid
        rw [asked.2.1]
        simp

theorem setAsking_alike (asking : WarpAsking) :
    Alike peer observer (observer.setAsking peer asking) :=
  .setPeer _

theorem askManifest_alike :
    Alike peer observer (observer.askManifest position peer) := by
  simp only [askManifest]
  split
  · exact (setAsking_alike _).trans .terminate
  · apply (setAsking_alike .warpManifest).trans
    apply Alike.of_eq <;> rfl

theorem askHeaders_alike {manifestBytes : Bytes} {snapshotHash : H256} :
    Alike peer observer
      (observer.askHeaders position peer manifestBytes snapshotHash) := by
  simp only [askHeaders]
  split
  · exact (setAsking_alike _).trans .terminate
  · apply (setAsking_alike .blockHeaders).trans
    apply Alike.of_eq <;> rfl

theorem acceptSnapshot_harmless {manifestBytes : Bytes} {snapshotHash : H256} :
    Harmless peer observer
      (observer.acceptSnapshot position peer manifestBytes snapshotHash) := by
  unfold acceptSnapshot
  split
  · exact .terminate
  · rename_i absent
    exact {
      taken := id
      ended := id
      manifest := fun isManifest => by
        rw [isManifest] at absent
        exact absurd rfl absent
      files := id
      neededChunks := id
      requestedChunks := fun _ => rfl
      peers := fun _ => rfl
      asked := id }

/-- A manifest does harm if the peer is to be asked for headers. -/
theorem onManifest_cases {manifestBytes : Bytes} :
    Harmless peer observer (observer.onManifest position peer manifestBytes) ∨
      (observer.syncingSnapshotHash = zeroHash 32 ∧
        observer.daoForkBlock ≠ 0 ∧ validateManifest manifestBytes = .ok true ∧
        ∃ snapshotHash, snapshotBlockHash manifestBytes = .ok snapshotHash ∧
          observer.onManifest position peer manifestBytes =
            observer.askHeaders position peer manifestBytes snapshotHash) := by
  unfold onManifest
  split
  · exact .inl .terminate
  · exact .inl (Harmless.disable.trans .setValidation)
  · rename_i valid
    split
    · exact .inl .terminate
    · rename_i snapshotHash read
      split
      · split
        · apply Or.inl
          apply Harmless.of_eq <;> rfl
        · exact .inl (Harmless.disable.trans .setValidation)
      · rename_i notSyncing
        split
        · rename_i hasFork
          exact .inr ⟨not_not.mp notSyncing, hasFork, valid, snapshotHash,
            read, rfl⟩
        · exact .inl acceptSnapshot_harmless

theorem onHeaders_harmless [Hashing] {manifestBytes headerBytes : Bytes}
    {snapshotHash : H256} :
    Harmless peer observer (observer.onHeaders position peer manifestBytes
      snapshotHash headerBytes) := by
  unfold onHeaders
  split
  · exact .terminate
  · exact Harmless.disable.trans .setValidation
  · exact acceptSnapshot_harmless

/-- A fiber that checks a peer concerns that peer; where it does not leave
it asked, the peer was not asked or is to be asked for headers. -/
theorem resumeValidation_cases [Hashing]
    (resumed : observer.resumeValidation position = some after) :
    ∃ peer stage, observer.validations[position]? = some (peer, stage) ∧
      (Harmless peer observer after ∨
        Alike peer observer after ∧ ∀ hash, observer.IsAsked peer hash →
          stage = .waitsForManifest ∧ observer.WillAskHeaders peer) := by
  unfold resumeValidation at resumed
  split at resumed
  · cases resumed
  · rename_i peer here
    refine ⟨peer, _, here, ?_⟩
    split at resumed
    · rename_i middle validated
      cases resumed
      exact .inl ((validateStatus_harmless validated).trans .setValidation)
    · rename_i middle validated
      cases resumed
      apply Or.inr
      obtain ⟨same, notAsked⟩ := validateStatus_true validated
      constructor
      · rw [same]
        exact askManifest_alike
      · intro hash asked
        exact absurd asked (notAsked hash)
  · rename_i peer here
    refine ⟨peer, _, here, ?_⟩
    split at resumed
    · cases resumed
      exact .inl .terminate
    · cases resumed
    · rename_i promise value retrieved isPromise
      have erased : Harmless peer observer { observer with
          manifests := Function.update observer.manifests peer none } := by
        apply Harmless.of_eq <;> rfl
      simp only at resumed
      split at resumed
      · cases resumed
        exact .inl (erased.trans .setValidation)
      · rename_i nonempty
        cases resumed
        rcases @onManifest_cases { observer with
          manifests := Function.update observer.manifests peer none }
          position peer (value.getD []) with harmless | asks
        · exact .inl (erased.trans harmless)
        · obtain ⟨zero, hasFork, valid, snapshotHash, read, same⟩ := asks
          rw [same]
          refine .inr ⟨erased.toAlike.trans askHeaders_alike, ?_⟩
          intro hash asked
          refine ⟨rfl, zero, hasFork, _, value.getD [], snapshotHash, isPromise,
            ?_, nonempty, valid, read⟩
          cases value with
          | none => exact absurd rfl nonempty
          | some content => rfl
  · rename_i peer manifestBytes snapshotHash here
    refine ⟨peer, _, here, ?_⟩
    split at resumed
    · cases resumed
      exact .inl .terminate
    · cases resumed
    · rename_i promise value retrieved isPromise
      have erased : Harmless peer observer { observer with
          daoForkHeaders :=
            Function.update observer.daoForkHeaders peer none } := by
        apply Harmless.of_eq <;> rfl
      simp only at resumed
      split at resumed
      · cases resumed
        exact .inl (erased.trans .setValidation)
      · cases resumed
        exact .inl (erased.trans onHeaders_harmless)

theorem Unforgotten.resumeValidation [Hashing]
    (unforgotten : observer.Unforgotten)
    (careful : observer.Careful (.resumeValidation position))
    (resumed : observer.resumeValidation position = some after) :
    after.Unforgotten := by
  obtain ⟨peer, stage, here, harmless | ⟨alike, harm⟩⟩ :=
    resumeValidation_cases resumed
  · exact harmless.unforgotten unforgotten
  · apply alike.unforgotten unforgotten
    intro hash asked
    obtain ⟨waits, asks⟩ := harm hash asked
    rw [waits] at here
    rcases careful peer hash here asked with without | not
    · exact .inl without
    · exact absurd asks not

end Validations

/-! ## The fiber that downloads -/

section Download

variable {observer after : WarpPeerObserver} {peer : Nat} {hash : H256}

/-- A chunk that is needed is so after the condition of the loop. -/
theorem nextRound_kept (needed : hash ∈ observer.neededChunks) :
    observer.nextRound.Kept hash := by
  apply Or.inr
  apply Or.inr
  constructor
  · exact needed
  · have nonempty : observer.neededChunks.isEmpty = false := by
      cases chunks : observer.neededChunks with
      | nil =>
          rw [chunks] at needed
          cases needed
      | cons first others => rfl
    simp [nextRound, nonempty]

/-- All chunks of the manifest are needed when it is taken. -/
theorem takeManifest_unforgotten {manifestBytes : Bytes}
    (isManifest : observer.manifest = some manifestBytes)
    (waits : observer.downloadFiber = .waitsForManifest) :
    (observer.takeManifest manifestBytes).Unforgotten := by
  unfold takeManifest
  split
  · intro taken
    rcases taken with taken | taken
    · cases waits.symm.trans taken
    · cases waits.symm.trans taken
  · rename_i manifest hashes read
    intro _
    exact ⟨manifestBytes, manifest, hashes, isManifest, read,
      fun hash listed => nextRound_kept listed⟩

/-- A chunk that is kept without this peer is kept when the peer is asked for
the first of the queue. -/
theorem requestChunk_kept {freePeers : List Nat} {chunkHash : H256}
    {others : List H256}
    (without : { observer with neededChunks := others }.KeptWithout peer hash) :
    ({ observer with freePeers }.requestChunk peer chunkHash others).Kept
      hash := by
  rcases without with saved | ⟨other, differ, requested, asking, connected⟩ |
    ⟨needed, _⟩
  · exact .inl saved
  · refine .inr (.inl ⟨other, ?_, ?_, ?_⟩)
    · exact (Function.update_of_ne differ _ _).trans requested
    · exact (congrArg WarpPeer.asking
        (Function.update_of_ne differ _ _)).trans asking
    · exact (congrArg WarpPeer.connected
        (Function.update_of_ne differ _ _)).trans connected
  · exact nextRound_kept needed

/-- A peer that is connected is asked for the chunk. -/
theorem requestChunk_asked {freePeers : List Nat} {chunkHash : H256}
    {others : List H256} (connected : (observer.peers peer).connected = true) :
    ({ observer with freePeers }.requestChunk peer chunkHash others).IsAsked
      peer chunkHash := by
  refine ⟨Function.update_self .., ?_, ?_⟩
  · simp [WarpPeerObserver.requestChunk, setAsking, nextRound]
  · simpa [WarpPeerObserver.requestChunk, setAsking, nextRound, setPeer]
      using connected

theorem Unforgotten.requestChunk {freePeers : List Nat} {chunkHash : H256}
    {others : List H256} (unforgotten : observer.Unforgotten)
    (downloads : observer.downloadFiber = .downloads)
    (chunks : observer.neededChunks = chunkHash :: others)
    (asked : ∀ hash, observer.IsAsked peer hash →
      observer.KeptWithout peer hash)
    (connected : (observer.peers peer).connected = true ∨
      { observer with neededChunks := others }.KeptWithout peer chunkHash) :
    ({ observer with freePeers }.requestChunk peer chunkHash
      others).Unforgotten := by
  have first : ({ observer with freePeers }.requestChunk peer chunkHash
      others).Kept chunkHash := by
    rcases connected with connected | without
    · exact .inr (.inl ⟨peer, requestChunk_asked connected⟩)
    · exact requestChunk_kept without
  have without : ∀ {hash}, observer.KeptWithout peer hash →
      ({ observer with freePeers }.requestChunk peer chunkHash
        others).Kept hash := by
    intro hash without
    rcases without with saved | other | ⟨needed, running⟩
    · exact requestChunk_kept (.inl saved)
    · exact requestChunk_kept (.inr (.inl other))
    · rw [chunks] at needed
      rcases List.mem_cons.mp needed with same | needed
      · rw [same]
        exact first
      · exact requestChunk_kept (.inr (.inr ⟨needed, running⟩))
  intro _
  obtain ⟨manifestBytes, manifest, hashes, isManifest, read, kept⟩ :=
    unforgotten (.inl downloads)
  refine ⟨manifestBytes, manifest, hashes, isManifest, read, ?_⟩
  intro hash listed
  rcases kept hash listed with saved | ⟨other, isAsked⟩ | needed
  · exact without (.inl saved)
  · by_cases same : other = peer
    · rw [same] at isAsked
      exact without (asked hash isAsked)
    · exact without (.inr (.inl ⟨other, same, isAsked⟩))
  · exact without (.inr (.inr needed))

theorem Unforgotten.resumeDownload [Hashing]
    (unforgotten : observer.Unforgotten)
    (careful : observer.Careful .resumeDownload)
    (resumed : observer.resumeDownload = some after) : after.Unforgotten := by
  unfold WarpPeerObserver.resumeDownload at resumed
  cases stage : observer.downloadFiber with
  | notStarted =>
      rw [stage] at resumed
      cases resumed
  | waitsForManifest =>
      rw [stage] at resumed
      obtain ⟨manifestBytes, isManifest, taken⟩ :=
        Option.map_eq_some_iff.mp resumed
      rw [← taken]
      exact takeManifest_unforgotten isManifest stage
  | downloads =>
      rw [stage] at resumed
      simp only at resumed
      split at resumed
      · rename_i peer freePeers chunkHash others isFree chunks
        split at resumed
        · rename_i alive
          cases resumed
          obtain ⟨asked, connected⟩ := careful peer freePeers chunkHash others
            stage isFree chunks alive
          exact unforgotten.requestChunk stage chunks asked connected
        · have harmless : Harmless peer observer after := by
            cases resumed
            exact .of_eq rfl stage.symm rfl rfl rfl rfl
          exact harmless.unforgotten unforgotten
      · cases resumed
  | ended =>
      rw [stage] at resumed
      cases resumed

end Download

/-! ## Runs -/

section Runs

variable [Hashing] {observer after : WarpPeerObserver}

theorem Unforgotten.step {event : WarpEvent}
    (unforgotten : observer.Unforgotten) (careful : observer.Careful event)
    (stepped : observer.step event = some after) : after.Unforgotten := by
  unfold WarpPeerObserver.step at stepped
  split at stepped
  · cases stepped
  · cases event with
    | message peer message =>
        simp only at stepped
        split at stepped
        · cases stepped
          exact unforgotten.message careful
        · cases stepped
    | disconnect peer =>
        simp only at stepped
        split at stepped
        · cases stepped
          exact unforgotten.disconnect careful
        · cases stepped
    | destroySession peer =>
        simp only at stepped
        split at stepped
        · cases stepped
        · cases stepped
          have harmless : Harmless peer observer (observer.setPeer peer
              fun state => { state with session := false }) := {
            toAlike := .setPeer _
            asked := fun asked => asked.setPeer rfl rfl }
          exact harmless.unforgotten unforgotten
    | resumeValidation position =>
        exact unforgotten.resumeValidation careful stepped
    | resumeDownload => exact unforgotten.resumeDownload careful stepped

end Runs

/-! ## A chunk that comes wrong after the last request -/

def warpSampleHashing : Hashing where
  sha3 content := hashOfNat (fromBigEndian content)
  trieRoot _ := hashOfNat 0

attribute [local instance] warpSampleHashing

end WarpPeerObserver

end Aecmio
