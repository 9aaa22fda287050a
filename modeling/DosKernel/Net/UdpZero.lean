import DosKernel.Net.Checksums

/-! A checksum of zero. `udp_send_packet` stores the complement of the sum as it comes, and
`udp_receive_packet` compares the field of every datagram with the complement of its sum, so a
zero is neither avoided nor taken for a datagram without a checksum. -/

namespace DosKernel.Net

open Lib Reading OnesComplement

section Datagram
variable (sourceIp : Ip) (sourcePort : UInt16) (destinationIp : Ip) (destinationPort : UInt16)
  (data : List UInt8)

/-- The one's-complement sum of a datagram in network order: pseudo-header, header with a zero
in the place of the checksum, and data. -/
def datagramSum : ℕ :=
  sum (beWords (ipv4PseudoHeader sourceIp destinationIp ipProtocolUdp (htons (data.length + 8)) ++
    udpHeader sourcePort destinationPort (data.length + 8) 0 ++ data))

/-- What the checksum field of `udp_send_packet` holds. -/
def checksumField : List UInt8 :=
  (udpPacket sourceIp sourcePort destinationIp destinationPort data).drop 6

/-- A datagram with a zero in the checksum field, behind an IPv4 header. -/
structure UnsummedAt (m : ℕ → UInt8) (ip packet : ℕ) : Prop where
  before : ip + 20 ≤ packet
  source : Holds m (ip + 12) sourceIp.toList
  destination : Holds m (ip + 16) destinationIp.toList
  header : Holds m packet (udpHeader sourcePort destinationPort (data.length + 8) 0)
  payload : Holds m (packet + 8) data

variable {data}

/-- The checksum comes out as zero when the sum is 0xFFFF. -/
theorem udpCalculateChecksum_zero_iff (hlen : data.length + 8 ≤ 65535) :
    udpCalculateChecksum (udpHeader sourcePort destinationPort (data.length + 8) 0) sourceIp
      destinationIp data = 0 ↔
    datagramSum sourceIp sourcePort destinationIp destinationPort data = 0xFFFF := by
  have hsum := udpWords_sum_lt sourceIp sourcePort destinationIp destinationPort data
    (data.length + 8) 0 (by omega)
  have hbytes : ipv4PseudoHeader sourceIp destinationIp ipProtocolUdp (htons (data.length + 8)) ++
      udpHeader sourcePort destinationPort (data.length + 8) 0 ++ data =
      udpFront sourceIp sourcePort destinationIp destinationPort (data.length + 8) ++ stored 0 ++
        data := by
    simp only [udpFront, udpHeader, List.append_assoc]
  have hlt := residue_lt (udpWords (udpHeader sourcePort destinationPort (data.length + 8) 0) sourceIp
    destinationIp data).sum
  unfold udpCalculateChecksum datagramSum
  rw [checksumOf_eq hsum, sum_beWords_iff, hbytes,
    ← udpWords_eq sourceIp sourcePort destinationIp destinationPort data (data.length + 8) 0]
  omega

theorem stored_eq_iff {v w : ℕ} (hv : v < 65536) (hw : w < 65536) : stored v = stored w ↔ v = w := by
  constructor
  · intro h
    have hwords := congrArg leWords h
    rw [leWords_stored hv, leWords_stored hw] at hwords
    exact List.singleton_inj.mp hwords
  · exact congrArg stored

variable (data) in
theorem checksumField_eq : checksumField sourceIp sourcePort destinationIp destinationPort data =
    stored (udpCalculateChecksum (udpHeader sourcePort destinationPort (data.length + 8) 0) sourceIp
      destinationIp data) := rfl

variable {sourceIp sourcePort destinationIp destinationPort} in
/-- `udp_receive_packet` delivers a datagram with a zero in the checksum field when the
checksum comes out as zero. -/
theorem udpReceivePacket_unsummed {k : Sockets} {listeners : ℕ → Bool}
    (hk : k.udpListeners = some listeners) (hlen : data.length + 8 ≤ 65535) {m : ℕ → UInt8}
    {ip packet : ℕ}
    (h : UnsummedAt sourceIp sourcePort destinationIp destinationPort data m ip packet) :
    (udpReceivePacket k m ip packet (packet + 8)).value = .udp destinationPort.toNat ↔
      udpCalculateChecksum (udpHeader sourcePort destinationPort (data.length + 8) 0) sourceIp
        destinationIp data = 0 := by
  have hfront := h.before
  have hsplit : udpHeader sourcePort destinationPort (data.length + 8) 0 =
      htons sourcePort.toNat ++ htons destinationPort.toNat ++ htons (data.length + 8) ++ stored 0 ++
        [] := (List.append_nil _).symm
  have hparts := h.header
  rw [udpHeader, holds_append, holds_append, holds_append] at hparts
  obtain ⟨⟨⟨-, hport⟩, hlength⟩, hchecksum⟩ := hparts
  have hcleared : Holds (clear m (packet + 6)) packet
      (udpHeader sourcePort destinationPort (data.length + 8) 0) := by
    have hheader := h.header
    rw [hsplit] at hheader ⊢
    exact hheader.clear_field
  have hexpected : (udpChecksumAt (clear m (packet + 6)) ip packet (packet + 8)
      (sizeSub (ntohs m (packet + 4)) 8)).value = udpCalculateChecksum
        (udpHeader sourcePort destinationPort (data.length + 8) 0) sourceIp destinationIp data := by
    have hbytes := bytesAt_eq hcleared
    rw [udpHeader_length] at hbytes
    have hsize : ntohs m (packet + 4) = data.length + 8 := ntohs_eq (by omega) hlength
    rw [hsize, sizeSub_add _ _ (by omega)]
    simp only [udpChecksumAt, value_bind, value_pure]
    rw [hbytes, ipAt_eq (h.source.clear (.inr (by simp; omega))),
      ipAt_eq (h.destination.clear (.inr (by simp; omega))),
      bytesAt_eq (h.payload.clear (.inl (by omega)))]
  have hzero : word16 m (packet + 6) = 0 := word16_eq (by decide) hchecksum
  have htarget : ntohs m (packet + 2) = destinationPort.toNat := ntohs_eq destinationPort.toNat_lt hport
  have hfield : word16 m (packet + 6) ≠ (udpChecksumAt (clear m (packet + 6)) ip packet (packet + 8)
      (sizeSub (ntohs m (packet + 4)) 8)).value ↔ ¬ udpCalculateChecksum
        (udpHeader sourcePort destinationPort (data.length + 8) 0) sourceIp destinationIp data = 0 := by
    rw [hexpected, hzero]
    exact not_congr eq_comm
  rw [udpReceivePacket, hk, value_bind, value_bind, value_bind, value_bind, htarget]
  by_cases hright : udpCalculateChecksum (udpHeader sourcePort destinationPort (data.length + 8) 0)
      sourceIp destinationIp data = 0
  · rw [if_neg (mt hfield.mp (not_not.mpr hright))]
    split_ifs <;> simp [hright]
  · rw [if_pos (hfield.mpr hright)]
    simp [hright]

end Datagram

/-- A datagram is sent with a zero in its checksum field exactly when its one's-complement sum is
0xFFFF, and a datagram with a zero there is delivered in just that case. -/
theorem udp_zero_checksum_iff (sourceIp : Ip) (sourcePort : UInt16) (destinationIp : Ip)
    (destinationPort : UInt16) (data : List UInt8) (hlen : data.length + 8 ≤ 65535) :
    (checksumField sourceIp sourcePort destinationIp destinationPort data ≠ [0, 0] ↔
      datagramSum sourceIp sourcePort destinationIp destinationPort data ≠ 0xFFFF) ∧
    ∀ (k : Sockets) (listeners : ℕ → Bool) (m : ℕ → UInt8) (ip packet : ℕ),
      k.udpListeners = some listeners → listeners destinationPort.toNat = true →
      UnsummedAt sourceIp sourcePort destinationIp destinationPort data m ip packet →
      ((udpReceivePacket k m ip packet (packet + 8)).value = .udp destinationPort.toNat ↔
        datagramSum sourceIp sourcePort destinationIp destinationPort data = 0xFFFF) := by
  have hzero := udpCalculateChecksum_zero_iff sourceIp sourcePort destinationIp destinationPort hlen
  constructor
  · rw [checksumField_eq, not_iff_not, ← hzero]
    exact stored_eq_iff (checksumOf_lt _) (by decide)
  · intro k listeners m ip packet hk _ hm
    rw [← hzero]
    exact udpReceivePacket_unsummed hk hlen hm

/-- Two bytes that bring the sum to 0xFFFF, between the addresses 0.0.0.0. -/
theorem udp_zero_checksum_iff_pair :
    checksumField (Vector.replicate 4 0) 0 (Vector.replicate 4 0) 0 [0xFF, 0xDA] = [0, 0] ∧
      datagramSum (Vector.replicate 4 0) 0 (Vector.replicate 4 0) 0 [0xFF, 0xDA] = 0xFFFF := by
  have hsum : datagramSum (Vector.replicate 4 0) 0 (Vector.replicate 4 0) 0 [0xFF, 0xDA] = 0xFFFF := by
    decide
  have hsend := (udp_zero_checksum_iff (Vector.replicate 4 0) 0 (Vector.replicate 4 0) 0 [0xFF, 0xDA]
    (by decide)).1
  exact ⟨not_not.mp fun h => hsend.mp h hsum, hsum⟩

theorem udp_zero_stored :
    ¬ ∀ (sourceIp : Ip) (sourcePort : UInt16) (destinationIp : Ip) (destinationPort : UInt16)
      (data : List UInt8), data.length + 8 ≤ 65535 →
      checksumField sourceIp sourcePort destinationIp destinationPort data ≠ [0, 0] ∧
      ∀ (k : Sockets) (listeners : ℕ → Bool) (m : ℕ → UInt8) (ip packet : ℕ),
        k.udpListeners = some listeners → listeners destinationPort.toNat = true →
        UnsummedAt sourceIp sourcePort destinationIp destinationPort data m ip packet →
        (udpReceivePacket k m ip packet (packet + 8)).value = .udp destinationPort.toNat := by
  intro h
  have hlen : ([0xFF, 0xDA] : List UInt8).length + 8 ≤ 65535 := by decide
  have hsum : datagramSum (Vector.replicate 4 0) 0 (Vector.replicate 4 0) 0 [0xFF, 0xDA] = 0xFFFF := by
    decide
  have hzero := (udpCalculateChecksum_zero_iff _ _ _ _ hlen).mpr hsum
  have hfield := checksumField_eq (Vector.replicate 4 0) 0 (Vector.replicate 4 0) 0
    [0xFF, 0xDA]
  rw [hzero] at hfield
  exact (h _ _ _ _ _ hlen).1 hfield

end DosKernel.Net
