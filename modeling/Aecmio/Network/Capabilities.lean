import Aecmio.Logic.Compaction
import Aecmio.Rlp.Reader
import Aecmio.State.Database

/-!
# The capabilities of a session

Two hosts send each other what they can do.  Each keeps, for every name, the
highest version that both have, and gives the packets of what it has kept
consecutive identifiers.  No word is exchanged about these, so both have to
come to the same.
-/

namespace Aecmio

/-- `CapDesc`. -/
structure CapDesc where
  name : Bytes
  version : U256
deriving DecidableEq

/-- The order of `std::pair`, which is that of the keys of a `std::map`. -/
def CapDesc.lt (first second : CapDesc) : Prop :=
  first.name < second.name ∨
    first.name = second.name ∧ first.version.toNat < second.version.toNat

instance : DecidableRel CapDesc.lt := fun first second =>
  inferInstanceAs (Decidable (first.name < second.name ∨
    first.name = second.name ∧ first.version.toNat < second.version.toNat))

/-- `HostCapabilityFace`. -/
structure HostCapability where
  messageCount : Nat

/-- The capabilities that are registered with a host. -/
structure Host where
  capabilities : List (CapDesc × HostCapability)
  sorted : (capabilities.map Prod.fst).Pairwise CapDesc.lt

/-- A `Capability` of a session. -/
structure PeerCapability where
  desc : CapDesc
  idOffset : Nat
  messageCount : Nat
deriving DecidableEq

def userPacket : Nat := 0x10

namespace Host

def caps (host : Host) : List CapDesc := host.capabilities.map Prod.fst

def haveCapability (host : Host) (desc : CapDesc) : Bool :=
  desc ∈ host.caps

/-- `messageCount` of a registered capability. -/
def messageCount (host : Host) (desc : CapDesc) : Nat :=
  match host.capabilities.find? (fun entry => entry.1 = desc) with
  | some entry => entry.2.messageCount
  | none => 0

/-- The predicate of the `remove_if` of `startPeerSession`. -/
def notHighest (host : Host) (caps : List CapDesc) (desc : CapDesc) : Bool :=
  !host.haveCapability desc || caps.any fun other =>
    desc.name = other.name && desc.version.toNat < other.version.toNat &&
      host.haveCapability other

/-- A string that was moved from is empty. -/
def movedFrom (desc : CapDesc) : CapDesc := { desc with name := [] }

/-- What is left of the capabilities that the other end has sent. -/
def supported (host : Host) (caps : List CapDesc) : List CapDesc :=
  Compaction.removeIf movedFrom host.notHighest caps

/-- The loop that gives the capabilities their offsets. -/
def newPeerCapabilities (host : Host) : Nat → List CapDesc →
    List PeerCapability
  | _, [] => []
  | offset, desc :: caps =>
      ⟨desc, offset, host.messageCount desc⟩ ::
        host.newPeerCapabilities
          ((offset + host.messageCount desc) % 2 ^ 32) caps

/-- `startPeerSession` with the capabilities of the other end; `none` if the
peer is useless. -/
def startPeerSession (host : Host) (caps : List CapDesc) :
    Option (List PeerCapability) :=
  if host.supported caps = [] then none
  else some (host.newPeerCapabilities userPacket (host.supported caps))

end Host

/-- Where `readPacket` sends a packet. -/
inductive Recipient where
  | session (id : Nat)
  | capability (desc : CapDesc) (id : Nat)
  | nobody
deriving DecidableEq

/-- The choice of `readPacket`. -/
def recipient (capabilities : List PeerCapability) (capId type : Nat) :
    Recipient :=
  if capId = 0 ∧ type < userPacket then .session type
  else
    match capabilities.find? (fun capability =>
      capability.idOffset ≤ type ∧
        type - capability.idOffset < capability.messageCount) with
    | some capability =>
        .capability capability.desc (type - capability.idOffset)
    | none => .nobody

/-- The byte that `prep` writes before the list. -/
def PeerCapability.prep (capability : PeerCapability) (id : Nat) : UInt8 :=
  UInt8.ofNat (id + capability.idOffset)

/-- The type that `doRead` takes from the first byte of a frame. -/
def packetType (frame : Bytes) : Except RLPError Nat := do
  RLP.toInt .uint32 (← RLP.construct (frame.take 1) .veryStrict)

/-! ## The filter -/

theorem CapDesc.lt_asymm {first second : CapDesc} (less : first.lt second) :
    ¬second.lt first := by
  intro more
  rcases less with less | ⟨same, less⟩
  · rcases more with more | ⟨same, -⟩
    · exact List.lt_asymm less more
    · rw [same] at less
      exact List.lt_irrefl _ less
  · rcases more with more | ⟨-, more⟩
    · rw [same] at more
      exact List.lt_irrefl _ more
    · exact Nat.lt_asymm less more

/-- A capability of the same name and a higher version, and the host has it. -/
def Host.Above (host : Host) (desc other : CapDesc) : Prop :=
  desc.name = other.name ∧ desc.version.toNat < other.version.toNat ∧
    other ∈ host.caps

namespace Host

variable {host : Host}

theorem notHighest_iff {caps : List CapDesc} {desc : CapDesc} :
    host.notHighest caps desc = true ↔
      desc ∉ host.caps ∨ ∃ other ∈ caps, host.Above desc other := by
  simp [notHighest, haveCapability, Above, and_assoc]

/-- In a sorted list a higher version comes later. -/
theorem later_of_above {caps : List CapDesc} {index : Nat}
    {desc other : CapDesc} (sorted : caps.Pairwise CapDesc.lt)
    (found : caps[index]? = some desc) (member : other ∈ caps)
    (above : host.Above desc other) : other ∈ caps.drop index := by
  rw [← List.take_append_drop index caps, List.mem_append] at member
  rcases member with before | after
  · have less : other.lt desc := by
      have split := sorted
      rw [← List.take_append_drop index caps, List.pairwise_append] at split
      apply split.2.2 other before desc
      have inside := (List.getElem?_eq_some_iff.mp found).1
      rw [List.drop_eq_getElem_cons inside,
        (List.getElem?_eq_some_iff.mp found).2]
      exact List.mem_cons_self
    exact absurd less (CapDesc.lt_asymm (.inr ⟨above.1, above.2.1⟩))
  · exact after

/-- What was moved from is no higher version of something that comes later. -/
theorem above_of_remains {caps vector : List CapDesc} {index : Nat}
    {desc other : CapDesc} (sorted : caps.Pairwise CapDesc.lt)
    (found : caps[index]? = some desc)
    (ahead : vector.drop index = caps.drop index)
    (remains : Compaction.Remains movedFrom caps index vector)
    (member : other ∈ vector) (above : host.Above desc other) :
    other ∈ caps := by
  rw [← List.take_append_drop index vector, List.mem_append] at member
  rcases member with before | after
  · rcases remains other before with there | ⟨origin, there, rfl⟩
    · exact List.mem_of_mem_take there
    · have noName : desc.name = [] := above.1
      have less : origin.lt desc := by
        have split := sorted
        rw [← List.take_append_drop index caps, List.pairwise_append] at split
        apply split.2.2 origin there desc
        have inside := (List.getElem?_eq_some_iff.mp found).1
        rw [List.drop_eq_getElem_cons inside,
          (List.getElem?_eq_some_iff.mp found).2]
        exact List.mem_cons_self
      have empty : origin.name = [] := by
        rcases less with less | ⟨same, -⟩
        · rw [noName] at less
          exact absurd less (List.not_lt_nil _)
        · rw [same, noName]
      have unchanged : movedFrom origin = origin := by
        cases origin
        cases empty
        rfl
      rw [unchanged]
      exact List.mem_of_mem_take there
  · rw [ahead] at after
    exact List.mem_of_mem_drop after

theorem agrees {caps : List CapDesc} (sorted : caps.Pairwise CapDesc.lt) :
    Compaction.Agrees movedFrom host.notHighest
      (fun desc => !host.notHighest caps desc) caps := by
  intro index desc vector found ahead remains
  rw [Bool.not_eq_false', notHighest_iff, notHighest_iff]
  apply or_congr_right
  constructor
  · rintro ⟨other, member, above⟩
    exact ⟨other, above_of_remains sorted found ahead remains member above,
      above⟩
  · rintro ⟨other, member, above⟩
    have later := later_of_above sorted found member above
    rw [← ahead] at later
    exact ⟨other, List.mem_of_mem_drop later, above⟩

theorem caps_sorted (host : Host) : host.caps.Pairwise CapDesc.lt :=
  host.sorted

/-- The compaction keeps what a filter keeps. -/
theorem supported_eq {caps : List CapDesc} (sorted : caps.Pairwise CapDesc.lt) :
    host.supported caps = caps.filter fun desc => !host.notHighest caps desc :=
  Compaction.removeIf_eq_filter (agrees sorted)

/-- The highest version of a name that both hosts have. -/
def Highest (host host' : Host) (desc : CapDesc) : Prop :=
  desc ∈ host.caps ∧ desc ∈ host'.caps ∧
    ∀ other ∈ host.caps, other ∈ host'.caps → other.name = desc.name →
      other.version.toNat ≤ desc.version.toNat

theorem Highest.symm {host' : Host} {desc : CapDesc}
    (highest : Highest host host' desc) : Highest host' host desc :=
  ⟨highest.2.1, highest.1, fun other first second =>
    highest.2.2 other second first⟩

theorem mem_supported {host' : Host} {desc : CapDesc} :
    desc ∈ host.supported host'.caps ↔ Highest host host' desc := by
  rw [supported_eq host'.caps_sorted, List.mem_filter, Bool.not_eq_true',
    ← Bool.not_eq_true, notHighest_iff]
  constructor
  · rintro ⟨there, kept⟩
    push Not at kept
    refine ⟨kept.1, there, ?_⟩
    intro other first second same
    by_contra higher
    exact kept.2 other second ⟨same.symm, Nat.lt_of_not_le higher, first⟩
  · rintro ⟨here, there, highest⟩
    refine ⟨there, ?_⟩
    rintro (absent | ⟨other, second, same, higher, first⟩)
    · exact absent here
    · exact absurd (highest other first second same.symm)
        (Nat.not_le_of_lt higher)

theorem sorted_supported (host host' : Host) :
    (host.supported host'.caps).Pairwise CapDesc.lt := by
  rw [supported_eq host'.caps_sorted]
  exact host'.caps_sorted.sublist List.filter_sublist

/-- Both ends keep the same. -/
theorem supported_comm (host host' : Host) :
    host.supported host'.caps = host'.supported host.caps := by
  have nodup : ∀ first second : Host, (first.supported second.caps).Nodup := by
    intro first second
    apply (sorted_supported first second).imp
    rintro desc other less rfl
    exact CapDesc.lt_asymm less less
  apply List.Perm.eq_of_pairwise _ (sorted_supported host host')
    (sorted_supported host' host)
  · rw [List.perm_ext_iff_of_nodup (nodup _ _) (nodup _ _)]
    intro desc
    rw [mem_supported, mem_supported]
    exact ⟨.symm, .symm⟩
  · intro desc other _ _ less more
    exact absurd more (CapDesc.lt_asymm less)

/-! ## The offsets -/

theorem newPeerCapabilities_congr {host' : Host} {caps : List CapDesc}
    (counts : ∀ desc ∈ caps, host.messageCount desc = host'.messageCount desc)
    (offset : Nat) : host.newPeerCapabilities offset caps =
      host'.newPeerCapabilities offset caps := by
  induction caps generalizing offset with
  | nil => rfl
  | cons desc caps induction =>
      have rest := induction fun other member =>
        counts other (List.mem_cons_of_mem _ member)
      rw [newPeerCapabilities, newPeerCapabilities,
        counts desc List.mem_cons_self, rest]

theorem newPeerCapabilities_desc (offset : Nat) (caps : List CapDesc) :
    (host.newPeerCapabilities offset caps).map PeerCapability.desc = caps := by
  induction caps generalizing offset with
  | nil => rfl
  | cons desc caps induction =>
      rw [newPeerCapabilities, List.map_cons, induction]

theorem newPeerCapabilities_counts (offset : Nat) (caps : List CapDesc) :
    (host.newPeerCapabilities offset caps).map PeerCapability.messageCount =
      caps.map host.messageCount := by
  induction caps generalizing offset with
  | nil => rfl
  | cons desc caps induction =>
      rw [newPeerCapabilities, List.map_cons, induction, List.map_cons]

/-- The offsets are consecutive. -/
theorem newPeerCapabilities_offset {offset : Nat} {caps : List CapDesc}
    (fits : offset + (caps.map host.messageCount).sum < 2 ^ 32)
    {before after : List PeerCapability} {capability : PeerCapability}
    (split : host.newPeerCapabilities offset caps =
      before ++ capability :: after) :
    capability.idOffset =
      offset + (before.map PeerCapability.messageCount).sum := by
  induction caps generalizing offset before with
  | nil => simp [newPeerCapabilities] at split
  | cons desc caps induction =>
      rw [newPeerCapabilities] at split
      rw [List.map_cons, List.sum_cons] at fits
      cases before with
      | nil =>
          rw [List.nil_append] at split
          rw [← (List.cons.inj split).1]
          rfl
      | cons first before =>
          rw [List.cons_append] at split
          obtain ⟨same, split⟩ := List.cons.inj split
          have noWrap : (offset + host.messageCount desc) % 2 ^ 32 =
              offset + host.messageCount desc := by
            apply Nat.mod_eq_of_lt
            omega
          rw [noWrap] at split
          have next := induction (by omega) split
          rw [next, ← same, List.map_cons, List.sum_cons, Nat.add_assoc]

end Host

/-- A range of identifiers that ends before another begins. -/
def Before (first second : PeerCapability) : Prop :=
  first.idOffset + first.messageCount ≤ second.idOffset

theorem before_of_consecutive {offset : Nat} {session : List PeerCapability}
    (consecutive : ∀ before capability after,
      session = before ++ capability :: after → capability.idOffset =
        offset + (before.map PeerCapability.messageCount).sum) :
    session.Pairwise Before := by
  induction session generalizing offset with
  | nil => exact List.Pairwise.nil
  | cons first rest induction =>
      have start : first.idOffset = offset := consecutive [] first rest rfl
      apply List.Pairwise.cons
      · intro other member
        obtain ⟨before, after, split⟩ := List.append_of_mem member
        have later := consecutive (first :: before) other after (by
          rw [split, List.cons_append])
        rw [List.map_cons, List.sum_cons] at later
        unfold Before
        omega
      · apply @induction (offset + first.messageCount)
        intro before capability after split
        have later := consecutive (first :: before) capability after (by
          rw [split, List.cons_append])
        rw [later, List.map_cons, List.sum_cons, Nat.add_assoc]

/-- A packet goes to the capability whose range it is in. -/
theorem recipient_eq {session : List PeerCapability}
    (apart : session.Pairwise Before) {capability : PeerCapability}
    (member : capability ∈ session) {id : Nat}
    (inRange : id < capability.messageCount)
    (user : userPacket ≤ capability.idOffset) :
    recipient session 0 (id + capability.idOffset) =
      .capability capability.desc id := by
  have notSession : ¬((0 : Nat) = 0 ∧
      id + capability.idOffset < userPacket) := by omega
  have found : session.find? (fun other =>
      other.idOffset ≤ id + capability.idOffset ∧
        id + capability.idOffset - other.idOffset < other.messageCount) =
      some capability := by
    obtain ⟨before, after, rfl⟩ := List.append_of_mem member
    rw [List.find?_eq_some_iff_append]
    refine ⟨?_, before, after, rfl, ?_⟩
    · rw [decide_eq_true_eq]
      omega
    · intro other earlier
      have earlierEnds : Before other capability :=
        (List.pairwise_append.mp apart).2.2 other earlier capability
          List.mem_cons_self
      unfold Before at earlierEnds
      rw [Bool.not_eq_true', decide_eq_false_iff_not]
      omega
  rw [recipient, if_neg notSession, found]
  change Recipient.capability _ (id + _ - _) = _
  rw [Nat.add_sub_cancel]

theorem packetType_eq {byte : UInt8} (frame : Bytes) (positive : 0 < byte.toNat)
    (small : byte.toNat < 0x80) :
    packetType (byte :: frame) = .ok byte.toNat := by
  have each : ∀ value < 0x80, 0 < value →
      packetType [UInt8.ofNat value] = .ok value := by decide
  have here := each byte.toNat small positive
  rw [UInt8.ofNat_toNat] at here
  exact here

/-- Both ends of a session keep the same capabilities under the same offsets,
and a packet comes to the capability that it was sent by. -/
theorem negotiation_agrees (host host' : Host)
    (counts : ∀ desc ∈ host.caps, desc ∈ host'.caps →
      host.messageCount desc = host'.messageCount desc)
    (fits : userPacket + (host.caps.map host.messageCount).sum ≤ 0x80) :
    host.startPeerSession host'.caps = host'.startPeerSession host.caps ∧
    (host.startPeerSession host'.caps = none ↔
      ∀ desc, ¬host.Highest host' desc) ∧
    ∀ session, host.startPeerSession host'.caps = some session →
      (∀ desc, desc ∈ session.map PeerCapability.desc ↔
        host.Highest host' desc) ∧
      (∀ before capability after,
        session = before ++ capability :: after → capability.idOffset =
          userPacket + (before.map PeerCapability.messageCount).sum) ∧
      session.Pairwise Before ∧
      ∀ capability ∈ session, ∀ id < capability.messageCount, ∀ payload,
        packetType (capability.prep id :: payload) =
          .ok (id + capability.idOffset) ∧
        recipient session 0 (id + capability.idOffset) =
          .capability capability.desc id := by
  have same := Host.supported_comm host host'
  have agreed : ∀ desc ∈ host.supported host'.caps,
      host.messageCount desc = host'.messageCount desc := by
    intro desc member
    have highest := Host.mem_supported.mp member
    exact counts desc highest.1 highest.2.1
  have sum_le : ((host.supported host'.caps).map host.messageCount).sum ≤
      (host.caps.map host.messageCount).sum := by
    rw [same, Host.supported_eq host.caps_sorted]
    exact (List.filter_sublist.map _).sum_le_sum (by simp)
  have small : userPacket +
      ((host.supported host'.caps).map host.messageCount).sum < 2 ^ 32 := by
    omega
  refine ⟨?_, ?_, ?_⟩
  · unfold Host.startPeerSession
    rw [← same, Host.newPeerCapabilities_congr agreed]
  · unfold Host.startPeerSession
    constructor
    · intro useless desc highest
      split at useless
      · rename_i empty
        have member := Host.mem_supported.mpr highest
        rw [empty] at member
        exact List.not_mem_nil member
      · cases useless
    · intro none
      apply if_pos
      apply List.eq_nil_iff_forall_not_mem.mpr
      intro desc member
      exact none desc (Host.mem_supported.mp member)
  · intro session started
    unfold Host.startPeerSession at started
    split at started
    · cases started
    · cases started
      have consecutive := fun before capability after =>
        @Host.newPeerCapabilities_offset host userPacket
          (host.supported host'.caps) small before after capability
      have apart := before_of_consecutive consecutive
      refine ⟨?_, consecutive, apart, ?_⟩
      · intro desc
        rw [Host.newPeerCapabilities_desc]
        exact Host.mem_supported
      · intro capability member id inRange payload
        obtain ⟨before, after, split⟩ := List.append_of_mem member
        have offset := consecutive before capability after split
        have total := congrArg
          (fun session => (session.map PeerCapability.messageCount).sum) split
        simp only [Host.newPeerCapabilities_counts, List.map_append,
          List.map_cons, List.sum_append, List.sum_cons] at total
        have below : id + capability.idOffset < 0x80 := by omega
        have byte : (capability.prep id).toNat = id + capability.idOffset := by
          rw [PeerCapability.prep, UInt8.toNat_ofNat']
          apply Nat.mod_eq_of_lt
          omega
        have positive : userPacket ≤ capability.idOffset := by omega
        have read := packetType_eq payload
          (show 0 < (capability.prep id).toNat by
            rw [byte]
            unfold userPacket at positive
            omega)
          (by rw [byte]; exact below)
        rw [byte] at read
        exact ⟨read, recipient_eq apart member inRange positive⟩

section Sample

/-- Two hosts with several versions of one capability. -/
def firstHost : Host where
  capabilities := [(⟨[0x65], 62⟩, ⟨8⟩), (⟨[0x65], 63⟩, ⟨17⟩),
    (⟨[0x73], 1⟩, ⟨4⟩)]
  sorted := by decide

def secondHost : Host where
  capabilities := [(⟨[0x65], 61⟩, ⟨8⟩), (⟨[0x65], 62⟩, ⟨8⟩),
    (⟨[0x65], 63⟩, ⟨17⟩), (⟨[0x73], 1⟩, ⟨4⟩), (⟨[0x74], 5⟩, ⟨1⟩)]
  sorted := by decide

theorem negotiation_agrees_sample :
    firstHost.startPeerSession secondHost.caps =
      secondHost.startPeerSession firstHost.caps ∧
    (firstHost.startPeerSession secondHost.caps = none ↔
      ∀ desc, ¬firstHost.Highest secondHost desc) ∧
    ∀ session, firstHost.startPeerSession secondHost.caps = some session →
      (∀ desc, desc ∈ session.map PeerCapability.desc ↔
        firstHost.Highest secondHost desc) ∧
      (∀ before capability after,
        session = before ++ capability :: after → capability.idOffset =
          userPacket + (before.map PeerCapability.messageCount).sum) ∧
      session.Pairwise Before ∧
      ∀ capability ∈ session, ∀ id < capability.messageCount, ∀ payload,
        packetType (capability.prep id :: payload) =
          .ok (id + capability.idOffset) ∧
        recipient session 0 (id + capability.idOffset) =
          .capability capability.desc id :=
  negotiation_agrees firstHost secondHost (by decide) (by decide)

/-- The first host keeps version 63 and the capability behind it. -/
example : firstHost.startPeerSession secondHost.caps =
    some [⟨⟨[0x65], 63⟩, 0x10, 17⟩, ⟨⟨[0x73], 1⟩, 0x21, 4⟩] := by
  decide

end Sample

end Aecmio
