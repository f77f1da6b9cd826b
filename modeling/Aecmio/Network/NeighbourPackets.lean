import Aecmio.Network.Discovery
import Aecmio.Network.NodeTable

/-!
# The answer to a `FindNode`

The nearest entries are sent in datagrams of 13 neighbours each.  A neighbour
has at most 91 bytes, with an IPv6 address and two large ports: 13 of them are
12 bytes too many for a datagram of 1280.
-/

namespace Aecmio

open Item

/-- `Neighbour(Node const&)`. -/
def Neighbour.ofEntry (entry : NodeEntry) : Neighbour :=
  ⟨entry.endpoint, entry.id⟩

/-- The constructor of `Neighbours` from the nearest entries. -/
def Neighbours.ofNearest (nearest : List NodeEntry) (offset limit : Nat) :
    Neighbours :=
  let last := if limit ≠ 0 then min nearest.length (offset + limit)
    else nearest.length
  ⟨((nearest.take last).drop offset).map Neighbour.ofEntry⟩

/-- `NodeSocket::maxDatagramSize`. -/
def maxDatagramSize : Nat := 1280

def nlimit : Nat := (maxDatagramSize - 109) / 90

/-- The loop over the offsets, with the time at each. -/
def neighboursFrom (nearest : List NodeEntry) (ts : Nat → UInt32) :
    Nat → Nat → List (UInt32 × Neighbours)
  | 0, _ => []
  | rounds + 1, offset =>
      if offset < nearest.length then
        (ts offset, .ofNearest nearest offset nlimit) ::
          neighboursFrom nearest ts rounds (offset + nlimit)
      else []

/-- The packets that are sent; there are no more than entries. -/
def findNodeAnswer (nearest : List NodeEntry) (ts : Nat → UInt32) :
    List (UInt32 × Neighbours) :=
  neighboursFrom nearest ts nearest.length 0

/-- The bytes of a packet. -/
def signNeighbours [Hashing] [Signing] (secret : Secret)
    (sent : UInt32 × Neighbours) : Except RLPError Bytes :=
  DiscoveryDatagram.sign secret { ts := sent.1, packet := .neighbours sent.2 }

/-! ## Sizes -/

/-- The bytes of the string that stands for a number. -/
def intSize (value : Nat) : Nat :=
  if value < 128 then 1 else bytesRequired value + 1

/-- The bytes that an address has less than the longest one. -/
def IPAddress.saved : IPAddress → Nat
  | .v4 _ => 12
  | .v6 _ => 0

/-- The bytes that a neighbour has less than 91. -/
def NodeEntry.saved (entry : NodeEntry) : Nat :=
  entry.endpoint.address.saved +
    (3 - intSize entry.endpoint.udpPort.toNat) +
    (3 - intSize entry.endpoint.tcpPort.toNat)

theorem not_standsForItself_intContent {value : Nat} (large : 128 ≤ value) :
    standsForItself (RLPStream.intContent value) = false := by
  have length : (RLPStream.intContent value).length = bytesRequired value :=
    length_toBigEndian ..
  cases content : RLPStream.intContent value with
  | nil => rfl
  | cons byte rest =>
      cases rest with
      | nil =>
          have one : bytesRequired value = 1 := by
            rw [← length, content]
            rfl
          have same : byte = UInt8.ofNat value := by
            simpa [RLPStream.intContent, one, toBigEndian] using content.symm
          have bound : value < 256 ^ bytesRequired value :=
            lt_pow_bytesRequired value
          rw [one] at bound
          simp [standsForItself, same]
          omega
      | cons other rest => rfl

theorem length_lengthPrefix_short {start size : Nat} (short : size < 56) :
    (lengthPrefix start size).length = 1 := by
  rw [lengthPrefix, if_pos short]
  rfl

/-- The prefix of a size of two or three digits. -/
theorem length_lengthPrefix_long {start size digits : Nat}
    (long : 56 ≤ size) (large : 256 ^ digits ≤ size)
    (small : size < 256 ^ (digits + 1)) :
    (lengthPrefix start size).length = digits + 2 := by
  have most := (bytesRequired_le_iff size (digits + 1)).mpr small
  have least := mt (bytesRequired_le_iff size digits).mp (not_lt_of_ge large)
  rw [lengthPrefix, if_neg (by omega), List.length_cons, length_toBigEndian]
  omega

theorem length_encodeList_le {payload : Bytes}
    (small : payload.length < 256 ^ 2) :
    (encodeList payload).length ≤ payload.length + 3 := by
  have digits := (bytesRequired_le_iff payload.length 2).mpr small
  rw [encodeList, List.length_append, lengthPrefix]
  split
  · rw [List.length_singleton]
    omega
  · rw [List.length_cons, length_toBigEndian]
    omega

theorem length_encodeList_long {payload : Bytes} (large : 256 ≤ payload.length)
    (small : payload.length < 256 ^ 2) :
    (encodeList payload).length = payload.length + 3 := by
  rw [encodeList, List.length_append, @length_lengthPrefix_long 0xc0 _ 1
    (by omega) (by rw [pow_one]; exact large) small]
  omega

theorem length_encodeInt {value : Nat} (small : value < 2 ^ 32) :
    (encodeData (RLPStream.intContent value)).length = intSize value := by
  have length : (RLPStream.intContent value).length = bytesRequired value :=
    length_toBigEndian ..
  have few : bytesRequired value ≤ 4 :=
    (bytesRequired_le_iff value 4).mpr small
  unfold intSize
  by_cases large : value < 128
  · rw [if_pos large]
    by_cases zero : value = 0
    · rw [zero]
      rfl
    · have one : bytesRequired value = 1 := by
        rw [bytesRequired_of_pos (by omega),
          show value / 256 = 0 by omega, bytesRequired_zero]
      have content : RLPStream.intContent value = [UInt8.ofNat value] := by
        simp [RLPStream.intContent, one, toBigEndian]
      have itself : standsForItself [UInt8.ofNat value] = true := by
        simp [standsForItself]
        omega
      rw [content, encodeData, if_pos itself]
      rfl
  · rw [if_neg large, encodeData,
      not_standsForItself_intContent (by omega), if_neg Bool.false_ne_true,
      List.length_append, length, length_lengthPrefix_short (by omega)]
    omega

theorem intSize_pos (value : Nat) : 1 ≤ intSize value := by
  unfold intSize
  split <;> omega

theorem intSize_le {value size : Nat} (positive : 0 < size)
    (small : value < 256 ^ size) : intSize value ≤ size + 1 := by
  have digits := (bytesRequired_le_iff value size).mpr small
  unfold intSize
  split <;> omega

/-- A string of more than one byte does not stand for itself. -/
theorem length_encodeHash {size : Nat} (hash : FixedHash size)
    (long : 1 < size) : (encodeData hash.val).length =
      (lengthPrefix 0x80 size).length + size := by
  have several : standsForItself hash.val = false := by
    have length := hash.property
    cases content : hash.val with
    | nil => rfl
    | cons byte rest =>
        cases rest with
        | nil =>
            rw [content, List.length_singleton] at length
            omega
        | cons other rest => rfl
  rw [encodeData, several, if_neg Bool.false_ne_true, List.length_append,
    hash.property]

theorem length_encodeAddress (address : IPAddress) :
    (encodeData address.toBytes).length + address.saved = 17 ∧
      address.saved ≤ 12 := by
  cases address with
  | v4 bytes =>
      rw [IPAddress.toBytes, length_encodeHash bytes (by decide)]
      exact ⟨rfl, le_rfl⟩
  | v6 bytes =>
      rw [IPAddress.toBytes, length_encodeHash bytes (by decide)]
      exact ⟨rfl, Nat.zero_le _⟩

theorem length_encodePort (port : UInt16) :
    (encodeData (RLPStream.intContent port.toNat)).length =
        intSize port.toNat ∧
      1 ≤ intSize port.toNat ∧ intSize port.toNat ≤ 3 := by
  have small := port.toNat_lt
  exact ⟨length_encodeInt (by omega), intSize_pos _,
    intSize_le (by decide) small⟩

/-- A neighbour has 91 bytes without those that are saved. -/
theorem length_neighbour (entry : NodeEntry) :
    (Neighbour.ofEntry entry).script.item.encode.length + entry.saved = 91 ∧
      entry.saved ≤ 16 := by
  obtain ⟨udpPort, udpLeast, udpMost⟩ :=
    length_encodePort entry.endpoint.udpPort
  obtain ⟨tcpPort, tcpLeast, tcpMost⟩ :=
    length_encodePort entry.endpoint.tcpPort
  obtain ⟨address, family⟩ := length_encodeAddress entry.endpoint.address
  have node := length_encodeHash entry.id (by decide)
  have prefix64 : (lengthPrefix 0x80 64).length = 2 := rfl
  have saved : entry.saved = entry.endpoint.address.saved +
      (3 - intSize entry.endpoint.udpPort.toNat) +
      (3 - intSize entry.endpoint.tcpPort.toNat) := rfl
  have fields : (encodeAll (Script.itemAll
      (Neighbour.ofEntry entry).endpoint.scripts ++
        [.data (Neighbour.ofEntry entry).node.val])).length + entry.saved =
      89 := by
    simp only [NodeIPEndpoint.scripts, Neighbour.ofEntry, Script.itemAll,
      Script.item, List.cons_append, List.nil_append, encodeAll, encode,
      List.length_append, List.append_nil]
    omega
  have most : entry.saved ≤ 16 := by omega
  have header := @length_lengthPrefix_long 0xc0 (encodeAll (Script.itemAll
      (Neighbour.ofEntry entry).endpoint.scripts ++
        [.data (Neighbour.ofEntry entry).node.val])).length 0
    (by omega) (by rw [pow_zero]; omega) (by rw [zero_add, pow_one]; omega)
  rw [Neighbour.item_script, encode, encodeList, List.length_append, header]
  omega

/-- The list of some neighbours. -/
theorem length_neighbourList (entries : List NodeEntry) :
    (encodeAll (Script.itemAll ((entries.map Neighbour.ofEntry).map
      Neighbour.script))).length + (entries.map NodeEntry.saved).sum =
        91 * entries.length := by
  induction entries with
  | nil => rfl
  | cons entry entries induction =>
      have first := (length_neighbour entry).1
      simp only [List.map_cons, Script.itemAll, encodeAll, List.length_append,
        List.sum_cons, List.length_cons]
      omega

theorem sum_saved_le (entries : List NodeEntry) :
    (entries.map NodeEntry.saved).sum ≤ 16 * entries.length := by
  induction entries with
  | nil => rfl
  | cons entry entries induction =>
      have first := (length_neighbour entry).2
      simp only [List.map_cons, List.sum_cons, List.length_cons]
      omega

section

variable [Hashing] [Signing] {secret : Secret} {entries : List NodeEntry}
  {ts : UInt32}

/-- The size of a datagram with some neighbours. -/
theorem length_signNeighbours (few : entries.length ≤ 13) :
    ∃ bytes payload, signNeighbours secret
        (ts, ⟨entries.map Neighbour.ofEntry⟩) = .ok bytes ∧
      payload.length + (entries.map NodeEntry.saved).sum =
        91 * entries.length ∧
      bytes.length = 98 + (encodeList (encodeList payload ++
        encodeData (RLPStream.intContent ts.toNat))).length := by
  have fits : (DiscoveryPacket.neighbours
      ⟨entries.map Neighbour.ofEntry⟩).Fits := by
    simp only [DiscoveryPacket.Fits, List.length_map]
    omega
  have signed := DiscoveryDatagram.sign_eq
    { ts, packet := .neighbours ⟨entries.map Neighbour.ofEntry⟩ } secret fits
  refine ⟨_, _, signed, length_neighbourList entries, ?_⟩
  dsimp only
  rw [List.length_append, List.length_append, List.length_cons,
    (Aecmio.sha3 _).property, (Signing.sign secret _).property]
  simp only [DiscoveryDatagram.script, Script.item, Script.itemAll, encode,
    encodeAll, List.append_nil]
  omega

/-- Only thirteen neighbours can be too many. -/
theorem signNeighbours_fits_iff (few : entries.length ≤ 13) :
    (∃ bytes, signNeighbours secret (ts, ⟨entries.map Neighbour.ofEntry⟩) =
        .ok bytes ∧ bytes.length ≤ maxDatagramSize) ↔
      (entries.length = 13 →
        12 ≤ (entries.map NodeEntry.saved).sum + (5 - intSize ts.toNat)) := by
  obtain ⟨bytes, payload, signed, whole, length⟩ :=
    @length_signNeighbours _ _ secret entries ts few
  have saved := sum_saved_le entries
  have time := length_encodeInt ts.toNat_lt
  have least := intSize_pos ts.toNat
  have most : intSize ts.toNat ≤ 5 :=
    intSize_le (by decide) (show _ < 256 ^ 4 from ts.toNat_lt)
  have limit : maxDatagramSize = 1280 := rfl
  have inner := @length_encodeList_le payload (by omega)
  have appended : (encodeList payload ++
      encodeData (RLPStream.intContent ts.toNat)).length =
        (encodeList payload).length + intSize ts.toNat := by
    rw [List.length_append, time]
  have outer := @length_encodeList_le (encodeList payload ++
    encodeData (RLPStream.intContent ts.toNat)) (by omega)
  have fits : (∃ bytes, signNeighbours secret
      (ts, ⟨entries.map Neighbour.ofEntry⟩) = .ok bytes ∧
        bytes.length ≤ maxDatagramSize) ↔ bytes.length ≤ maxDatagramSize := by
    rw [signed]
    simp
  rw [fits]
  by_cases full : entries.length = 13
  · have inner' := @length_encodeList_long payload (by omega) (by omega)
    have outer' := @length_encodeList_long (encodeList payload ++
      encodeData (RLPStream.intContent ts.toNat)) (by omega) (by omega)
    rw [forall_prop_of_true full]
    omega
  · exact iff_of_true (by omega) fun thirteen => absurd thirteen full

end

/-! ## The loop -/

variable {nearest : List NodeEntry} {ts : Nat → UInt32}

/-- The packet at an offset has the next thirteen entries. -/
theorem ofNearest_eq (nearest : List NodeEntry) (offset : Nat) :
    Neighbours.ofNearest nearest offset nlimit =
      ⟨((nearest.drop offset).take 13).map Neighbour.ofEntry⟩ := by
  have thirteen : nlimit = 13 := rfl
  rw [Neighbours.ofNearest, thirteen, if_pos (by decide), List.take_drop,
    Nat.min_comm, ← List.take_eq_take_min]

theorem flatMap_neighboursFrom (rounds offset : Nat)
    (enough : nearest.length ≤ offset + rounds) :
    (neighboursFrom nearest ts rounds offset).flatMap
        (fun sent => sent.2.neighbours) =
      (nearest.drop offset).map Neighbour.ofEntry := by
  induction rounds generalizing offset with
  | zero =>
      rw [List.drop_eq_nil_of_le (by omega)]
      rfl
  | succ rounds induction =>
      unfold neighboursFrom
      by_cases inside : offset < nearest.length
      · have thirteen : nlimit = 13 := rfl
        rw [if_pos inside, List.flatMap_cons, ofNearest_eq, thirteen,
          induction (offset + 13) (by omega), ← List.map_append,
          ← List.drop_drop, List.take_append_drop]
      · rw [if_neg inside, List.drop_eq_nil_of_le (by omega)]
        rfl

/-- What is sent at the offsets. -/
theorem mem_neighboursFrom {rounds offset : Nat} {sent : UInt32 × Neighbours}
    (enough : nearest.length ≤ offset + rounds) :
    sent ∈ neighboursFrom nearest ts rounds offset ↔ ∃ packets,
      offset + 13 * packets < nearest.length ∧
        sent = (ts (offset + 13 * packets),
          .ofNearest nearest (offset + 13 * packets) nlimit) := by
  induction rounds generalizing offset with
  | zero =>
      refine iff_of_false List.not_mem_nil ?_
      rintro ⟨packets, inside, -⟩
      omega
  | succ rounds induction =>
      unfold neighboursFrom
      by_cases inside : offset < nearest.length
      · have thirteen : nlimit = 13 := rfl
        rw [if_pos inside, List.mem_cons, thirteen, induction (by omega)]
        constructor
        · rintro (rfl | ⟨packets, within, rfl⟩)
          · exact ⟨0, inside, rfl⟩
          · refine ⟨packets + 1, by omega, ?_⟩
            rw [show offset + 13 + 13 * packets =
              offset + 13 * (packets + 1) by omega, thirteen]
        · rintro ⟨packets, within, rfl⟩
          cases packets with
          | zero => exact .inl rfl
          | succ packets =>
              refine .inr ⟨packets, by omega, ?_⟩
              rw [show offset + 13 + 13 * packets =
                offset + 13 * (packets + 1) by omega, thirteen]
      · rw [if_neg inside]
        refine iff_of_false List.not_mem_nil ?_
        rintro ⟨packets, within, -⟩
        omega

/-- The packets partition the entries in order, and every datagram has at most
1280 bytes if and only if in every packet of thirteen neighbours twelve bytes
are saved by IPv4 addresses, small ports and the time. -/
theorem findNodeAnswer_fits_iff [Hashing] [Signing] (secret : Secret)
    (nearest : List NodeEntry) (ts : Nat → UInt32) :
    ((findNodeAnswer nearest ts).flatMap (fun sent => sent.2.neighbours) =
        nearest.map Neighbour.ofEntry ∧
      ∀ sent ∈ findNodeAnswer nearest ts, ∃ bytes,
        signNeighbours secret sent = .ok bytes ∧
          bytes.length ≤ maxDatagramSize) ↔
    ∀ packets, 13 * packets + 13 ≤ nearest.length →
      12 ≤ (((nearest.drop (13 * packets)).take 13).map NodeEntry.saved).sum +
        (5 - intSize (ts (13 * packets)).toNat) := by
  have partition := @flatMap_neighboursFrom nearest ts nearest.length 0
    (by omega)
  rw [List.drop_zero] at partition
  unfold findNodeAnswer
  rw [and_iff_right partition]
  constructor
  · intro fit packets inside
    have sent := fit _ ((mem_neighboursFrom (by omega)).mpr
      ⟨packets, by omega, rfl⟩)
    rw [ofNearest_eq, signNeighbours_fits_iff (List.length_take_le ..),
      Nat.zero_add] at sent
    apply sent
    rw [List.length_take, List.length_drop]
    omega
  · intro roomy sent member
    obtain ⟨packets, inside, rfl⟩ :=
      (mem_neighboursFrom (by omega)).mp member
    rw [ofNearest_eq, signNeighbours_fits_iff (List.length_take_le ..),
      Nat.zero_add]
    intro full
    rw [List.length_take, List.length_drop] at full
    exact roomy packets (by omega)

/-- Thirteen nodes with IPv6 addresses and the usual ports. -/
def nearestSample : List NodeEntry :=
  (List.range 13).map fun index =>
    { id := hashAt 64 ((hashOfNat 1).val ++ (hashOfNat index).val)
      endpoint := ⟨.v6 (hashAt 16 [32, 1, 13, 184]), 30303, 30303⟩
      distance := 250
      pending := false }

section Sample

open DiscoveryDatagram

attribute [local instance] discoverySampleHashing discoverySampleSigning

/-- Their datagram is too long. -/
theorem nearestSample_exceeds :
    ¬((findNodeAnswer nearestSample fun _ => 1700000060).flatMap
        (fun sent => sent.2.neighbours) =
          nearestSample.map Neighbour.ofEntry ∧
      ∀ sent ∈ findNodeAnswer nearestSample fun _ => 1700000060, ∃ bytes,
        signNeighbours (hashOfNat 5) sent = .ok bytes ∧
          bytes.length ≤ maxDatagramSize) := by
  rintro ⟨-, fit⟩
  have sent := fit _ ((mem_neighboursFrom (by decide)).mpr
    ⟨0, by decide, rfl⟩)
  rw [ofNearest_eq, signNeighbours_fits_iff (List.length_take_le ..)] at sent
  exact absurd (sent rfl) (by decide +kernel)

end Sample

end Aecmio
