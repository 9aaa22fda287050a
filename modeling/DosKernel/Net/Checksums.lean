import DosKernel.Net.Receive

/-! A packet from `udp_send_packet` or `tcp_send_packet` passes the checks of RFC 1071,
and the receive functions find its checksums right. -/

namespace DosKernel.Net

open Lib Reading OnesComplement

/-! ### A packet in memory -/

/-- The bytes stand in memory from an address on. -/
def Holds (m : ℕ → UInt8) (a : ℕ) (bs : List UInt8) : Prop :=
  ∀ i b, bs[i]? = some b → m (a + i) = b

section Holds
variable {m : ℕ → UInt8} {a : ℕ}

theorem holds_append (as bs : List UInt8) :
    Holds m a (as ++ bs) ↔ Holds m a as ∧ Holds m (a + as.length) bs := by
  constructor
  · intro h
    refine ⟨fun i b hb => h i b ?_, fun i b hb => ?_⟩
    · obtain ⟨hi, -⟩ := List.getElem?_eq_some_iff.mp hb
      rwa [List.getElem?_append_left hi]
    · rw [Nat.add_assoc]
      apply h
      rwa [List.getElem?_append_right (by omega), Nat.add_sub_cancel_left]
  · rintro ⟨has, hbs⟩ i b hb
    by_cases hi : i < as.length
    · rw [List.getElem?_append_left hi] at hb
      exact has i b hb
    · rw [List.getElem?_append_right (by omega)] at hb
      have hbyte := hbs _ _ hb
      rwa [show a + as.length + (i - as.length) = a + i by omega] at hbyte

theorem holds_nil (m : ℕ → UInt8) (a : ℕ) : Holds m a [] := by simp [Holds]

theorem holds_cons (b : UInt8) (bs : List UInt8) :
    Holds m a (b :: bs) ↔ m a = b ∧ Holds m (a + 1) bs := by
  have hone : Holds m a [b] ↔ m a = b := by simp [Holds, List.getElem?_singleton]
  rw [← List.singleton_append, holds_append, hone]
  rfl

theorem holds_pair (b b' : UInt8) : Holds m a [b, b'] ↔ m a = b ∧ m (a + 1) = b' := by
  constructor
  · intro h
    exact ⟨h 0 b rfl, h 1 b' rfl⟩
  · rintro ⟨h, h'⟩ i c hc
    match i with
    | 0 => exact h.trans (Option.some.inj hc)
    | 1 => exact h'.trans (Option.some.inj hc)
    | i + 2 => simp at hc

theorem bytesAt_eq {bs : List UInt8} (h : Holds m a bs) : bytesAt m a bs.length = bs := by
  apply List.ext_getElem
  · simp [bytesAt]
  · intro i _ hi
    simp only [bytesAt, List.getElem_map, List.getElem_range]
    exact h i _ (List.getElem?_eq_getElem hi)

theorem ipAt_eq {ip : Ip} (h : Holds m a ip.toList) : ipAt m a = ip := by
  apply Vector.ext
  intro i hi
  rw [ipAt, Vector.getElem_ofFn]
  exact h i _ (by rw [List.getElem?_eq_getElem (by simpa using hi)]; simp)

theorem word16_eq {v : ℕ} (hv : v < 65536) (h : Holds m a (stored v)) : word16 m a = v := by
  obtain ⟨hlow, hhigh⟩ := (holds_pair _ _).mp h
  have hlow' : (UInt8.ofNat v).toNat = v % 256 := UInt8.toNat_ofNat'
  have hhigh' : (UInt8.ofNat (v / 256)).toNat = v / 256 % 256 := UInt8.toNat_ofNat'
  rw [word16, hlow, hhigh, hlow', hhigh']
  omega

theorem ntohs_eq {v : ℕ} (hv : v < 65536) (h : Holds m a (htons v)) : ntohs m a = v := by
  obtain ⟨hhigh, hlow⟩ := (holds_pair _ _).mp h
  have hlow' : (UInt8.ofNat v).toNat = v % 256 := UInt8.toNat_ofNat'
  have hhigh' : (UInt8.ofNat (v / 256)).toNat = v / 256 % 256 := UInt8.toNat_ofNat'
  rw [ntohs, hlow, hhigh, hlow', hhigh']
  omega

/-- What does not overlap the cleared field stays. -/
theorem Holds.clear {bs : List UInt8} (h : Holds m a bs) {p : ℕ}
    (hp : p + 2 ≤ a ∨ a + bs.length ≤ p) : Holds (clear m p) a bs := by
  intro i b hb
  obtain ⟨hi, -⟩ := List.getElem?_eq_some_iff.mp hb
  rw [Net.clear, Function.update_of_ne (by omega), Function.update_of_ne (by omega)]
  exact h i b hb

theorem holds_cleared (m : ℕ → UInt8) (p : ℕ) : Holds (clear m p) p (stored 0) := by
  refine (holds_pair _ _).mpr ⟨?_, ?_⟩
  · rw [Net.clear, Function.update_of_ne (by omega), Function.update_self]
    rfl
  · rw [Net.clear, Function.update_self]
    rfl

/-- A field between two byte strings is cleared. -/
theorem Holds.clear_field {as bs : List UInt8} {v : ℕ} (h : Holds m a (as ++ stored v ++ bs)) :
    Holds (Net.clear m (a + as.length)) a (as ++ stored 0 ++ bs) := by
  rw [holds_append, holds_append] at h ⊢
  obtain ⟨⟨has, -⟩, hbs⟩ := h
  refine ⟨⟨has.clear (.inr le_rfl), holds_cleared m _⟩, ?_⟩
  simp only [List.length_append, stored_length] at hbs ⊢
  exact hbs.clear (.inl (by omega))

theorem Holds.field {as bs : List UInt8} {v : ℕ} (h : Holds m a (as ++ stored v ++ bs)) :
    Holds m (a + as.length) (stored v) := by
  rw [holds_append, holds_append] at h
  exact h.1.2

end Holds

/-! ### What is sent is accepted -/

section Accepted
variable {m : ℕ → UInt8} {a : ℕ} {sourceIp destinationIp : Ip} {protocol : UInt8}
  {protocolPacket data : List UInt8}

theorem Holds.ipv4Packet (h : Holds m a (ipv4Packet sourceIp destinationIp protocol protocolPacket
    data)) :
    Holds m a (([0x45, 0] ++ htons (20 + protocolPacket.length + data.length) ++ htons 0 ++ htons 0 ++
      [64, protocol]) ++ stored (ipv4CalculateChecksum (ipv4Header (20 + protocolPacket.length +
      data.length) protocol 0 sourceIp destinationIp)) ++
      (sourceIp.toList ++ destinationIp.toList)) ∧
    Holds m (a + 20) protocolPacket ∧ Holds m (a + 20 + protocolPacket.length) data := by
  rw [Net.ipv4Packet, List.append_assoc, holds_append, holds_append, ipv4Header_length,
    ipv4Header_eq] at h
  exact h

/-- `ipv4_receive_packet` finds the header checksum right and goes on with the protocol. -/
theorem ipv4ReceivePacket_sent (k : Sockets) (h : Holds m a (Net.ipv4Packet sourceIp destinationIp
    protocol protocolPacket data)) :
    (ipv4ReceivePacket k m a (a + 20)).value =
      (if protocol = ipProtocolUdp then udpReceivePacket k m a (a + 20) (a + 28)
        else if protocol = ipProtocolTcp then tcpReceivePacket k m a (a + 20) (a + 40)
        else pure .ignored).value := by
  have hheader := h.ipv4Packet.1
  have hversion : m a = 0x45 := by
    rw [List.append_assoc, holds_append] at hheader
    exact hheader.1 0 0x45 rfl
  have hprotocol : m (a + 9) = protocol := by
    rw [List.append_assoc, holds_append] at hheader
    exact hheader.1 9 protocol rfl
  have hchecksum : word16 m (a + 10) = ipv4CalculateChecksum (bytesAt (clear m (a + 10)) a 20) := by
    have hcleared := bytesAt_eq hheader.clear_field
    rw [← ipv4Header_eq, ipv4Header_length] at hcleared
    have hfield := word16_eq (checksumOf_lt _) hheader.field
    exact hfield.trans (congrArg ipv4CalculateChecksum hcleared.symm)
  have hfour : ¬ (m a).toNat / 16 ≠ 4 := by
    rw [hversion]
    decide
  rw [ipv4ReceivePacket, value_bind, if_neg hfour, value_bind, value_bind,
    if_neg (not_not.mpr hchecksum), value_bind]
  dsimp only
  rw [hprotocol]

/-- The two addresses in the header. -/
theorem Holds.ips (h : Holds m a (Net.ipv4Packet sourceIp destinationIp protocol protocolPacket
    data)) : Holds m (a + 12) sourceIp.toList ∧ Holds m (a + 16) destinationIp.toList := by
  have hheader := h.ipv4Packet.1
  rw [holds_append, holds_append (sourceIp.toList)] at hheader
  have hlen : sourceIp.toList.length = 4 := by simp
  rw [hlen] at hheader
  exact hheader.2

theorem sizeSub_add (n b : ℕ) (hn : n + b < 65536) : sizeSub (n + b) b = n := by
  rw [sizeSub, show n + b + 4294967296 - b = n + 4294967296 by omega, Nat.add_mod_right,
    Nat.mod_eq_of_lt (by omega)]

/-- The checksum field of a protocol header that was sent, and what is read when it has
been cleared: the two addresses, the header with a zero in the field, and the data. -/
theorem Holds.cleared_packet {as bs : List UInt8} {v : ℕ} (c n : ℕ) (hv : v < 65536)
    (hc : as.length = c) (hn : (as ++ stored v ++ bs).length = n)
    (h : Holds m a (Net.ipv4Packet sourceIp destinationIp protocol (as ++ stored v ++ bs) data)) :
    word16 m (a + 20 + c) = v ∧
      ipAt (Net.clear m (a + 20 + c)) (a + 12) = sourceIp ∧
      ipAt (Net.clear m (a + 20 + c)) (a + 16) = destinationIp ∧
      bytesAt (Net.clear m (a + 20 + c)) (a + 20) n = as ++ stored 0 ++ bs ∧
      bytesAt (Net.clear m (a + 20 + c)) (a + 20 + n) data.length = data := by
  subst hc
  obtain ⟨hsource, hdestination⟩ := h.ips
  obtain ⟨-, hpacket, hdata⟩ := h.ipv4Packet
  have hcleared := bytesAt_eq hpacket.clear_field
  have hlength : (as ++ stored 0 ++ bs).length = n := by
    rw [← hn]
    simp only [List.length_append, stored_length]
  have hbehind : as.length + 2 ≤ n := by
    rw [← hn]
    simp only [List.length_append, stored_length]
    omega
  rw [hlength] at hcleared
  rw [hn] at hdata
  exact ⟨word16_eq hv hpacket.field, ipAt_eq (hsource.clear (.inr (by simp; omega))),
    ipAt_eq (hdestination.clear (.inr (by simp))), hcleared,
    bytesAt_eq (hdata.clear (.inl (by omega)))⟩

/-- `udp_receive_packet` finds the checksum right. -/
theorem udpReceivePacket_sent (k : Sockets) {sourcePort destinationPort : UInt16}
    (hlen : data.length + 8 < 65536)
    (h : Holds m a (Net.ipv4Packet sourceIp destinationIp ipProtocolUdp
      (udpPacket sourceIp sourcePort destinationIp destinationPort data) data)) :
    (udpReceivePacket k m a (a + 20) (a + 28)).value ≠ .badChecksum := by
  rw [udpPacket] at h
  have hfields : udpHeader sourcePort destinationPort (data.length + 8) (udpCalculateChecksum
      (udpHeader sourcePort destinationPort (data.length + 8) 0) sourceIp destinationIp data) =
      (htons sourcePort.toNat ++ htons destinationPort.toNat ++ htons (data.length + 8)) ++
        stored (udpCalculateChecksum (udpHeader sourcePort destinationPort (data.length + 8) 0)
          sourceIp destinationIp data) ++ [] := (List.append_nil _).symm
  rw [hfields] at h
  have hlength : ntohs m (a + 20 + 4) = data.length + 8 := by
    have hpacket := h.ipv4Packet.2.1
    rw [List.append_nil, holds_append, holds_append] at hpacket
    exact ntohs_eq hlen hpacket.1.2
  obtain ⟨hfield, hsource, hdestination, hheader, hdata⟩ := h.cleared_packet 6 8
    (checksumOf_lt _) (by simp) (by simp)
  have hright : ¬ word16 m (a + 20 + 6) ≠ (udpChecksumAt (clear m (a + 20 + 6)) a (a + 20) (a + 28)
      (sizeSub (ntohs m (a + 20 + 4)) 8)).value := by
    rw [hlength, sizeSub_add _ _ hlen, not_not]
    simp only [udpChecksumAt, value_bind, value_pure]
    rw [hfield, hsource, hdestination, hheader, hdata, List.append_nil, udpHeader,
      udpCalculateChecksum]
  rw [udpReceivePacket]
  cases k.udpListeners with
  | none => simp
  | some listeners =>
    simp only [value_bind]
    rw [if_neg hright]
    split_ifs <;> simp

/-- `tcp_receive_packet` finds the checksum right. -/
theorem tcpReceivePacket_sent (k : Sockets) {sourcePort destinationPort : UInt16} {seq ack : UInt32}
    {flags : TcpFlags} (hlen : data.length + 40 < 65536)
    (h : Holds m a (Net.ipv4Packet sourceIp destinationIp ipProtocolTcp
      (tcpPacket sourceIp sourcePort destinationIp destinationPort seq ack flags data) data)) :
    (tcpReceivePacket k m a (a + 20) (a + 40)).value ≠ .badChecksum := by
  rw [tcpPacket] at h
  have hlength : ntohs m (a + 2) = data.length + 40 := by
    have hheader := h.ipv4Packet.1
    rw [tcpHeader_length] at hheader
    simp only [List.append_assoc] at hheader
    rw [holds_append, holds_append] at hheader
    have htotal : Holds m (a + 2) (htons (20 + 20 + data.length)) := hheader.2.1
    rw [ntohs_eq (by omega) htotal]
    omega
  obtain ⟨hfield, hsource, hdestination, hheader, hdata⟩ := Holds.cleared_packet 16 20
    (checksumOf_lt _) (by simp) (by simp) h
  have hright : ¬ word16 m (a + 20 + 16) ≠ (tcpChecksumAt (clear m (a + 20 + 16)) a (a + 20) (a + 40)
      (sizeSub (ntohs m (a + 2)) 40)).value := by
    rw [hlength, sizeSub_add _ _ hlen, not_not]
    simp only [tcpChecksumAt, value_bind, value_pure]
    rw [hfield, hsource, hdestination, hheader, hdata, tcpHeader, tcpCalculateChecksum]
  rw [tcpReceivePacket]
  cases k.tcpListeners with
  | none => simp
  | some listeners =>
    simp only [value_bind]
    rw [if_neg hright]
    simp only [value_bind]
    split_ifs <;> simp

end Accepted

/-! ### Both protocols -/

inductive Transport
  | udp
  | tcp (seq ack : UInt32) (flags : TcpFlags)

/-- `sizeof(udp_packet)` or `sizeof(tcp_packet)`. -/
def Transport.headerSize : Transport → ℕ
  | .udp => 8
  | .tcp _ _ _ => 20

/-- What goes to `ethernet_send_packet`. -/
def Transport.send (t : Transport) (driver : Driver) (arpGetMac : Ip → Option Mac) (synC : UInt32)
    (sourceIp : Ip) (sourcePort : UInt16) (destinationIp : Ip) (destinationPort : UInt16)
    (data : List UInt8) : Option (Mac × List UInt8) :=
  match t with
  | .udp => udpSendPacket driver arpGetMac sourceIp sourcePort destinationIp destinationPort data
  | .tcp seq ack flags => (tcpSendPacket driver arpGetMac synC sourceIp sourcePort destinationIp
      destinationPort seq ack flags data).1

/-- `udp_packet` or `tcp_packet` before the checksum is stored. -/
def Transport.header (t : Transport) (synC : UInt32) (sourcePort destinationPort : UInt16)
    (data : List UInt8) : List UInt8 :=
  match t with
  | .udp => udpHeader sourcePort destinationPort (data.length + 8) 0
  | .tcp seq ack flags =>
    tcpHeader sourcePort destinationPort (if seq = 0 then synC else seq) ack flags 0

/-- The words that are added up for the checksum of the transport header. -/
def Transport.words (t : Transport) (synC : UInt32) (sourceIp : Ip) (sourcePort : UInt16)
    (destinationIp : Ip) (destinationPort : UInt16) (data : List UInt8) : List ℕ :=
  match t with
  | .udp => udpWords (t.header synC sourcePort destinationPort data) sourceIp destinationIp data
  | .tcp _ _ _ =>
    tcpWords (t.header synC sourcePort destinationPort data) sourceIp destinationIp data

/-- `IP_PROTOCOL_UDP` or `IP_PROTOCOL_TCP`. -/
def Transport.protocol : Transport → UInt8
  | .udp => ipProtocolUdp
  | .tcp _ _ _ => ipProtocolTcp

/-- The transport header as it is sent. -/
def Transport.packet (t : Transport) (synC : UInt32) (sourceIp : Ip) (sourcePort : UInt16)
    (destinationIp : Ip) (destinationPort : UInt16) (data : List UInt8) : List UInt8 :=
  match t with
  | .udp => udpPacket sourceIp sourcePort destinationIp destinationPort data
  | .tcp seq ack flags => tcpPacket sourceIp sourcePort destinationIp destinationPort
      (if seq = 0 then synC else seq) ack flags data

theorem ipv4SendPacket_packet {driver : Driver} {arpGetMac : Ip → Option Mac}
    {sourceIp destinationIp : Ip} {protocol : UInt8} {protocolPacket data : List UInt8} {mac : Mac}
    {packet : List UInt8} (h : ipv4SendPacket driver arpGetMac sourceIp destinationIp protocol
      protocolPacket data = some (mac, packet)) :
    packet = ipv4Packet sourceIp destinationIp protocol protocolPacket data := by
  rw [ipv4SendPacket] at h
  split_ifs at h
  · exact (Prod.mk.inj (Option.some.inj h)).2.symm
  · obtain ⟨mac', -, hmac⟩ := Option.map_eq_some_iff.mp h
    exact (Prod.mk.inj hmac).2.symm

section Transport
variable (t : Transport) (synC : UInt32) (sourceIp : Ip) (sourcePort : UInt16) (destinationIp : Ip)
  (destinationPort : UInt16) (data : List UInt8)

theorem Transport.packet_length :
    (t.packet synC sourceIp sourcePort destinationIp destinationPort data).length =
      t.headerSize := by
  cases t with
  | udp => exact udpHeader_length _ _ _ _
  | tcp seq ack flags => exact tcpHeader_length _ _ _ _ _ _

variable {t sourceIp destinationIp data} in
theorem Transport.send_packet {driver : Driver} {arpGetMac : Ip → Option Mac} {mac : Mac}
    {packet : List UInt8} (h : t.send driver arpGetMac synC sourceIp sourcePort destinationIp
      destinationPort data = some (mac, packet)) :
    packet = ipv4Packet sourceIp destinationIp t.protocol
      (t.packet synC sourceIp sourcePort destinationIp destinationPort data) data := by
  cases t with
  | udp => exact ipv4SendPacket_packet h
  | tcp seq ack flags => exact ipv4SendPacket_packet h

variable {data} in
theorem Transport.words_sum_lt (h : data.length ≤ 65535) :
    (t.words synC sourceIp sourcePort destinationIp destinationPort data).sum < 4294967296 := by
  cases t with
  | udp => exact udpWords_sum_lt sourceIp sourcePort destinationIp destinationPort data _ 0 h
  | tcp seq ack flags =>
    exact tcpWords_sum_lt sourceIp sourcePort destinationIp destinationPort _ ack flags data 0 h

variable {data} in
theorem Transport.verifies (h : 20 + t.headerSize + data.length ≤ 65535) :
    Verifies (ipv4Packet sourceIp destinationIp t.protocol
      (t.packet synC sourceIp sourcePort destinationIp destinationPort data) data) := by
  refine ⟨?_, ?_⟩
  · rw [ipv4Packet_take]
    exact sum_beWords (ipv4Header_verifies sourceIp destinationIp t.protocol _)
  · rw [rfcPseudoHeader_ipv4Packet, ipv4Packet_drop, t.packet_length,
      Nat.add_comm t.headerSize]
    apply sum_beWords
    cases t with
    | udp =>
      simp only [Transport.headerSize] at h
      exact udpPacket_verifies sourceIp sourcePort destinationIp destinationPort data (by omega)
    | tcp seq ack flags =>
      simp only [Transport.headerSize] at h
      exact tcpPacket_verifies sourceIp sourcePort destinationIp destinationPort _ ack flags data
        (by omega)

variable {t sourceIp destinationIp data} in
theorem Transport.accepted (h : 20 + t.headerSize + data.length ≤ 65535) {k : Sockets}
    {m : ℕ → UInt8} {a : ℕ} (hm : Holds m a (ipv4Packet sourceIp destinationIp t.protocol
      (t.packet synC sourceIp sourcePort destinationIp destinationPort data) data)) :
    (ipv4ReceivePacket k m a (a + 20)).value ≠ .badChecksum := by
  rw [ipv4ReceivePacket_sent k hm]
  cases t with
  | udp =>
    simp only [Transport.headerSize] at h
    exact udpReceivePacket_sent k (by omega) hm
  | tcp seq ack flags =>
    simp only [Transport.headerSize] at h
    exact tcpReceivePacket_sent k (by omega) hm

end Transport

theorem prefix_sum_le {ws vs : List ℕ} (h : ws <+: vs) : ws.sum ≤ vs.sum := by
  obtain ⟨us, rfl⟩ := h
  rw [List.sum_append]
  exact Nat.le_add_right _ _

/-- A packet that `udp_send_packet` or `tcp_send_packet` sends verifies, no sum that its
checksums go through reaches 32 bits, and `ipv4_receive_packet` with the function of the
protocol does not reject it for a checksum. -/
theorem sent_packet_checked (t : Transport) (driver : Driver) (arpGetMac : Ip → Option Mac)
    (synC : UInt32) (sourceIp : Ip) (sourcePort : UInt16) (destinationIp : Ip)
    (destinationPort : UInt16) (data : List UInt8)
    (hlen : 20 + t.headerSize + data.length ≤ 65535) (mac : Mac) (packet : List UInt8)
    (hsend : t.send driver arpGetMac synC sourceIp sourcePort destinationIp destinationPort data =
      some (mac, packet)) :
    Verifies packet ∧
    (∀ ws, ws <+: ipv4Words (ipv4Header packet.length t.protocol 0 sourceIp destinationIp) →
      ws.sum < 4294967296) ∧
    (∀ ws, ws <+: t.words synC sourceIp sourcePort destinationIp destinationPort data →
      ws.sum < 4294967296) ∧
    ∀ (k : Sockets) (m : ℕ → UInt8) (a : ℕ), Holds m a packet →
      (ipv4ReceivePacket k m a (a + 20)).value ≠ .badChecksum := by
  obtain rfl := t.send_packet synC sourcePort destinationPort hsend
  refine ⟨t.verifies synC sourceIp sourcePort destinationIp destinationPort hlen, ?_, ?_, ?_⟩
  · intro ws hws
    exact (prefix_sum_le hws).trans_lt (ipv4Words_sum_lt _ (ipv4Header_length _ _ _ _ _))
  · intro ws hws
    exact (prefix_sum_le hws).trans_lt
      (t.words_sum_lt synC sourceIp sourcePort destinationIp destinationPort (by omega))
  · intro k m a hm
    exact t.accepted synC sourcePort destinationPort hlen hm

/-- Three bytes to port 53 of the broadcast address. -/
theorem sent_packet_checked_broadcast :
    ∃ mac packet, Transport.udp.send ⟨Vector.replicate 4 10, Vector.replicate 4 255,
      Vector.replicate 4 1⟩ (fun _ => none) 0 (Vector.replicate 4 10) 1000 (Vector.replicate 4 255)
      53 [1, 2, 3] = some (mac, packet) ∧ Verifies packet :=
  ⟨_, _, rfl, (sent_packet_checked .udp ⟨Vector.replicate 4 10, Vector.replicate 4 255,
    Vector.replicate 4 1⟩ (fun _ => none) 0 (Vector.replicate 4 10) 1000 (Vector.replicate 4 255)
    53 [1, 2, 3] (by decide) _ _ rfl).1⟩

end DosKernel.Net
