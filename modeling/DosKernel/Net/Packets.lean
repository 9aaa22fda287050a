import DosKernel.Lib.OnesComplement

/-! The packets that `udp_send_packet` and `tcp_send_packet` build through
`ipv4_send_packet`, byte by byte, and their checksums. `htons` of a number puts its high
byte first in memory; a checksum is stored as it is, low byte first. -/

namespace DosKernel.Net

open Lib OnesComplement

/-- `uint8_t ip[4]`. -/
abbrev Ip := Vector UInt8 4

/-- `uint8_t mac[6]`. -/
abbrev Mac := Vector UInt8 6

/-! ### The code -/

/-- The two bytes of `htons(v)` in memory. -/
def htons (v : ℕ) : List UInt8 := [UInt8.ofNat (v / 256), UInt8.ofNat v]

/-- The four bytes of `htonl(v)` in memory. -/
def htonl (v : ℕ) : List UInt8 := htons (v / 65536) ++ htons v

/-- The two bytes of a `uint16_t` in memory. -/
def stored (v : ℕ) : List UInt8 := [UInt8.ofNat v, UInt8.ofNat (v / 256)]

/-- `IP_PROTOCOL_TCP` and `IP_PROTOCOL_UDP`. -/
def ipProtocolTcp : UInt8 := 0x06

def ipProtocolUdp : UInt8 := 0x11

/-- The sum of the words in a `uint32_t`, its carries folded, and the complement. -/
def checksumOf (words : List ℕ) : ℕ :=
  let checksum := words.foldl (fun c w => (c + w) % 4294967296) 0
  (4294967295 - fold checksum checksum) % 65536

/-- `ipv4_pseudo_header`; `length` is stored as it is. -/
def ipv4PseudoHeader (sourceIp destinationIp : Ip) (protocol : UInt8) (length : List UInt8) :
    List UInt8 :=
  sourceIp.toList ++ destinationIp.toList ++ [0, protocol] ++ length

/-- The words that `ipv4_calculate_checksum` adds. -/
def ipv4Words (packet : List UInt8) : List ℕ := leWords packet

def ipv4CalculateChecksum (packet : List UInt8) : ℕ := checksumOf (ipv4Words packet)

/-- The words that `udp_calculate_checksum` adds. -/
def udpWords (packet : List UInt8) (sourceIp destinationIp : Ip) (data : List UInt8) : List ℕ :=
  let length := (packet.drop 4).take 2
  let pseudoHeader := packet.take 6 ++ [0, 0]
  leWords (ipv4PseudoHeader sourceIp destinationIp ipProtocolUdp length) ++ leWords pseudoHeader ++
    leWords data

def udpCalculateChecksum (packet : List UInt8) (sourceIp destinationIp : Ip) (data : List UInt8) :
    ℕ := checksumOf (udpWords packet sourceIp destinationIp data)

/-- The words that `tcp_calculate_checksum` adds. -/
def tcpWords (packet : List UInt8) (sourceIp destinationIp : Ip) (data : List UInt8) : List ℕ :=
  let length := htons (data.length + 20)
  let pseudoHeader := packet.take 16 ++ [0, 0] ++ packet.drop 18
  leWords (ipv4PseudoHeader sourceIp destinationIp ipProtocolTcp length) ++ leWords pseudoHeader ++
    leWords data

def tcpCalculateChecksum (packet : List UInt8) (sourceIp destinationIp : Ip) (data : List UInt8) :
    ℕ := checksumOf (tcpWords packet sourceIp destinationIp data)

/-- `ipv4_packet`, as `ipv4_send_packet` fills it. -/
def ipv4Header (totalLength : ℕ) (protocol : UInt8) (headerChecksum : ℕ) (sourceIp destinationIp : Ip) :
    List UInt8 :=
  [0x45, 0] ++ htons totalLength ++ htons 0 ++ htons 0 ++ [64, protocol] ++ stored headerChecksum ++
    sourceIp.toList ++ destinationIp.toList

/-- The packet that `ipv4_send_packet` builds. -/
def ipv4Packet (sourceIp destinationIp : Ip) (protocol : UInt8) (protocolPacket data : List UInt8) :
    List UInt8 :=
  let totalLength := 20 + protocolPacket.length + data.length
  let checksum :=
    ipv4CalculateChecksum (ipv4Header totalLength protocol 0 sourceIp destinationIp)
  ipv4Header totalLength protocol checksum sourceIp destinationIp ++ protocolPacket ++ data

/-- `ipv4_config` of an `ethernet_driver`. -/
structure Driver where
  ip : Ip
  netmask : Ip
  gateway : Ip

def ipv4IsCidrSubnet (ip netip mask : Ip) : Bool :=
  Vector.zipWith (· &&& ·) ip mask == Vector.zipWith (· &&& ·) netip mask

/-- `ipv4_send_packet`: the address and the packet that go to `ethernet_send_packet`.
`arpGetMac` tells what `arp_get_mac` finds. -/
def ipv4SendPacket (driver : Driver) (arpGetMac : Ip → Option Mac) (sourceIp destinationIp : Ip)
    (protocol : UInt8) (protocolPacket data : List UInt8) : Option (Mac × List UInt8) :=
  let packet := ipv4Packet sourceIp destinationIp protocol protocolPacket data
  if destinationIp = Vector.replicate 4 255 then some (Vector.replicate 6 255, packet)
  else if ipv4IsCidrSubnet destinationIp driver.ip driver.netmask ∧ arpGetMac destinationIp = none then
    none
  else (arpGetMac driver.gateway).map fun mac => (mac, packet)

def udpHeader (sourcePort destinationPort : UInt16) (length checksum : ℕ) : List UInt8 :=
  htons sourcePort.toNat ++ htons destinationPort.toNat ++ htons length ++ stored checksum

/-- The packet that `udp_send_packet` builds. -/
def udpPacket (sourceIp : Ip) (sourcePort : UInt16) (destinationIp : Ip) (destinationPort : UInt16)
    (data : List UInt8) : List UInt8 :=
  let length := data.length + 8
  let checksum := udpCalculateChecksum (udpHeader sourcePort destinationPort length 0) sourceIp
    destinationIp data
  udpHeader sourcePort destinationPort length checksum

def udpSendPacket (driver : Driver) (arpGetMac : Ip → Option Mac) (sourceIp : Ip)
    (sourcePort : UInt16) (destinationIp : Ip) (destinationPort : UInt16) (data : List UInt8) :
    Option (Mac × List UInt8) :=
  ipv4SendPacket driver arpGetMac sourceIp destinationIp ipProtocolUdp
    (udpPacket sourceIp sourcePort destinationIp destinationPort data) data

/-- The flags that a caller of `tcp_send_packet` chooses. -/
structure TcpFlags where
  syn : Bool
  ack : Bool
  fin : Bool
  psh : Bool

/-- The byte `flags` of `tcp_packet`. -/
def TcpFlags.byte (f : TcpFlags) : UInt8 :=
  f.fin.toUInt8 + 2 * f.syn.toUInt8 + 8 * f.psh.toUInt8 + 16 * f.ack.toUInt8

/-- `tcp_packet`: `data_offset` is 5 and the urgent pointer zero. -/
def tcpHeader (sourcePort destinationPort : UInt16) (seq ack : UInt32) (flags : TcpFlags)
    (checksum : ℕ) : List UInt8 :=
  htons sourcePort.toNat ++ htons destinationPort.toNat ++ htonl seq.toNat ++ htonl ack.toNat ++
    [0x50, flags.byte] ++ htons 32768 ++ stored checksum ++ htons 0

/-- The packet that `tcp_send_packet` builds. -/
def tcpPacket (sourceIp : Ip) (sourcePort : UInt16) (destinationIp : Ip) (destinationPort : UInt16)
    (seq ack : UInt32) (flags : TcpFlags) (data : List UInt8) : List UInt8 :=
  let checksum := tcpCalculateChecksum (tcpHeader sourcePort destinationPort seq ack flags 0)
    sourceIp destinationIp data
  tcpHeader sourcePort destinationPort seq ack flags checksum

/-- `tcp_send_packet`, with the new value of `syn_c`. -/
def tcpSendPacket (driver : Driver) (arpGetMac : Ip → Option Mac) (synC : UInt32) (sourceIp : Ip)
    (sourcePort : UInt16) (destinationIp : Ip) (destinationPort : UInt16) (seq ack : UInt32)
    (flags : TcpFlags) (data : List UInt8) : Option (Mac × List UInt8) × UInt32 :=
  let number := if seq = 0 then synC else seq
  let packet := tcpPacket sourceIp sourcePort destinationIp destinationPort number ack flags data
  (ipv4SendPacket driver arpGetMac sourceIp destinationIp ipProtocolTcp packet data,
    if seq = 0 then synC + 1 else synC)

/-! ### Sizes -/

@[simp] theorem htons_length (v : ℕ) : (htons v).length = 2 := rfl

@[simp] theorem htonl_length (v : ℕ) : (htonl v).length = 4 := rfl

@[simp] theorem stored_length (v : ℕ) : (stored v).length = 2 := rfl

@[simp] theorem ipv4Header_length (totalLength : ℕ) (protocol : UInt8) (headerChecksum : ℕ)
    (sourceIp destinationIp : Ip) :
    (ipv4Header totalLength protocol headerChecksum sourceIp destinationIp).length = 20 := by
  simp [ipv4Header]

@[simp] theorem udpHeader_length (sourcePort destinationPort : UInt16) (length checksum : ℕ) :
    (udpHeader sourcePort destinationPort length checksum).length = 8 := by
  simp [udpHeader]

@[simp] theorem tcpHeader_length (sourcePort destinationPort : UInt16) (seq ack : UInt32)
    (flags : TcpFlags) (checksum : ℕ) :
    (tcpHeader sourcePort destinationPort seq ack flags checksum).length = 20 := by
  simp [tcpHeader]

/-! ### Checksums -/

theorem foldl_accumulate {ws : List ℕ} {c : ℕ} (h : c + ws.sum < 4294967296) :
    ws.foldl (fun c w => (c + w) % 4294967296) c = c + ws.sum := by
  induction ws generalizing c with
  | nil => rfl
  | cons w ws ih =>
    rw [List.sum_cons] at h ⊢
    rw [List.foldl_cons, Nat.mod_eq_of_lt (by omega), ih (by omega), Nat.add_assoc]

/-- Without an overflow the checksum is the complement of the sum. -/
theorem checksumOf_eq {ws : List ℕ} (h : ws.sum < 4294967296) :
    checksumOf ws = 65535 - residue ws.sum := by
  have hlt := residue_lt ws.sum
  rw [checksumOf, foldl_accumulate (by omega), Nat.zero_add, fold_eq le_rfl]
  omega

theorem checksumOf_lt (ws : List ℕ) : checksumOf ws < 65536 := Nat.mod_lt _ (by decide)

theorem leWords_stored {v : ℕ} (h : v < 65536) : leWords (stored v) = [v] := by
  have hlow : (UInt8.ofNat v).toNat = v % 256 := UInt8.toNat_ofNat'
  have hhigh : (UInt8.ofNat (v / 256)).toNat = v / 256 % 256 := UInt8.toNat_ofNat'
  simp only [stored, leWords, hlow, hhigh, List.cons.injEq, and_true]
  omega

/-- A byte string with its checksum stored in it sums to 65535: `as` stands in front of
the checksum and `bs` behind it. -/
theorem residue_stored {as bs : List UInt8} (has : as.length % 2 = 0)
    (h : (leWords (as ++ stored 0 ++ bs)).sum < 4294967296) :
    residue (leWords (as ++ stored (checksumOf (leWords (as ++ stored 0 ++ bs))) ++ bs)).sum =
      65535 := by
  have hsum : ∀ v < 65536, (leWords (as ++ stored v ++ bs)).sum =
      (leWords (as ++ stored 0 ++ bs)).sum + v := by
    intro v hv
    have hlen : ∀ v, (as ++ stored v).length % 2 = 0 := fun v => by simp [has]
    rw [leWords_append (hlen v), leWords_append has, leWords_append (hlen 0), leWords_append has,
      leWords_stored hv, leWords_stored (by decide)]
    simp only [List.sum_append, List.sum_singleton]
    omega
  rw [hsum _ (checksumOf_lt _), checksumOf_eq h]
  exact residue_add_complement _

/-! ### What is sent verifies -/

/-- The pseudo-header of RFC 768 and RFC 793 for an IPv4 packet without options. -/
def rfcPseudoHeader (packet : List UInt8) : List UInt8 :=
  (packet.drop 12).take 8 ++ [0] ++ (packet.drop 9).take 1 ++ htons (packet.length - 20)

/-- The check of RFC 1071 on the header of an IPv4 packet, and on its pseudo-header,
transport header and payload. -/
def Verifies (packet : List UInt8) : Prop :=
  sum (beWords (packet.take 20)) = 0xFFFF ∧
    sum (beWords (rfcPseudoHeader packet ++ packet.drop 20)) = 0xFFFF

section Sent
variable (sourceIp destinationIp : Ip) (protocol : UInt8)

theorem ipv4Header_eq (totalLength headerChecksum : ℕ) :
    ipv4Header totalLength protocol headerChecksum sourceIp destinationIp =
      ([0x45, 0] ++ htons totalLength ++ htons 0 ++ htons 0 ++ [64, protocol]) ++
        stored headerChecksum ++ (sourceIp.toList ++ destinationIp.toList) := by
  simp [ipv4Header]

theorem ipv4Words_sum_lt (packet : List UInt8) (h : packet.length = 20) :
    (ipv4Words packet).sum < 4294967296 := by
  have hsum := leWords_sum_le packet
  rw [h] at hsum
  rw [ipv4Words]
  omega

theorem ipv4Header_verifies (totalLength : ℕ) : residue (leWords (ipv4Header totalLength protocol
    (ipv4CalculateChecksum (ipv4Header totalLength protocol 0 sourceIp destinationIp)) sourceIp
    destinationIp)).sum = 65535 := by
  have hsum := ipv4Words_sum_lt _ (ipv4Header_length totalLength protocol 0 sourceIp destinationIp)
  rw [ipv4CalculateChecksum]
  rw [ipv4Words, ipv4Header_eq] at hsum ⊢
  exact residue_stored (by simp) hsum

theorem ipv4Packet_take (protocolPacket data : List UInt8) :
    (ipv4Packet sourceIp destinationIp protocol protocolPacket data).take 20 =
      ipv4Header (20 + protocolPacket.length + data.length) protocol
        (ipv4CalculateChecksum (ipv4Header (20 + protocolPacket.length + data.length) protocol 0
          sourceIp destinationIp)) sourceIp destinationIp := by
  rw [ipv4Packet, List.append_assoc]
  exact List.take_left' (ipv4Header_length _ _ _ _ _)

theorem ipv4Packet_drop (protocolPacket data : List UInt8) :
    (ipv4Packet sourceIp destinationIp protocol protocolPacket data).drop 20 =
      protocolPacket ++ data := by
  rw [ipv4Packet, List.append_assoc]
  exact List.drop_left' (ipv4Header_length _ _ _ _ _)

theorem ipv4Packet_length (protocolPacket data : List UInt8) :
    (ipv4Packet sourceIp destinationIp protocol protocolPacket data).length =
      20 + protocolPacket.length + data.length := by
  simp [ipv4Packet, Nat.add_assoc]

theorem rfcPseudoHeader_ipv4Packet (protocolPacket data : List UInt8) :
    rfcPseudoHeader (ipv4Packet sourceIp destinationIp protocol protocolPacket data) =
      ipv4PseudoHeader sourceIp destinationIp protocol
        (htons (protocolPacket.length + data.length)) := by
  have hlen : 20 + protocolPacket.length + data.length - 20 =
      protocolPacket.length + data.length := by omega
  have hips : (sourceIp.toList ++ destinationIp.toList).length = 8 := by simp
  rw [rfcPseudoHeader, ipv4Packet_length, hlen, ipv4PseudoHeader, ipv4Packet]
  simp only [ipv4Header, htons, stored, List.cons_append, List.nil_append, List.append_assoc,
    List.drop_succ_cons, List.drop_zero, List.take_succ_cons, List.take_zero]
  rw [← List.append_assoc sourceIp.toList, List.take_left' hips, List.append_assoc]

end Sent

section Udp
variable (sourceIp : Ip) (sourcePort : UInt16) (destinationIp : Ip) (destinationPort : UInt16)
  (data : List UInt8)

/-- All that the UDP checksum covers in front of it. -/
def udpFront (length : ℕ) : List UInt8 :=
  ipv4PseudoHeader sourceIp destinationIp ipProtocolUdp (htons length) ++
    (htons sourcePort.toNat ++ htons destinationPort.toNat ++ htons length)

theorem ipv4PseudoHeader_length (protocol : UInt8) (length : List UInt8) (h : length.length = 2) :
    (ipv4PseudoHeader sourceIp destinationIp protocol length).length = 12 := by
  simp [ipv4PseudoHeader, h]

theorem udpFront_length (length : ℕ) :
    (udpFront sourceIp sourcePort destinationIp destinationPort length).length = 18 := by
  rw [udpFront, List.length_append, ipv4PseudoHeader_length _ _ _ _ rfl]
  rfl

theorem udpWords_eq (length checksum : ℕ) :
    udpWords (udpHeader sourcePort destinationPort length checksum) sourceIp destinationIp data =
      leWords (udpFront sourceIp sourcePort destinationIp destinationPort length ++ stored 0 ++
        data) := by
  have hpseudo := ipv4PseudoHeader_length sourceIp destinationIp ipProtocolUdp (htons length) rfl
  have hcleared : (udpHeader sourcePort destinationPort length checksum).take 6 ++ [0, 0] =
      udpHeader sourcePort destinationPort length 0 := rfl
  have hall : udpFront sourceIp sourcePort destinationIp destinationPort length ++ stored 0 ++ data =
      ipv4PseudoHeader sourceIp destinationIp ipProtocolUdp (htons length) ++
        (udpHeader sourcePort destinationPort length 0 ++ data) := by
    simp only [udpFront, udpHeader, List.append_assoc]
  rw [hall, leWords_append (by rw [hpseudo]), leWords_append (by simp), udpWords, hcleared,
    List.append_assoc]
  rfl

theorem udpWords_sum_lt (length checksum : ℕ) (h : data.length ≤ 65535) :
    (udpWords (udpHeader sourcePort destinationPort length checksum) sourceIp destinationIp
      data).sum < 4294967296 := by
  have hsum := leWords_sum_le (udpFront sourceIp sourcePort destinationIp destinationPort length ++
    stored 0 ++ data)
  rw [List.length_append, List.length_append, udpFront_length, stored_length] at hsum
  rw [udpWords_eq]
  omega

theorem udpPacket_verifies (h : data.length + 8 ≤ 65535) :
    residue (leWords (ipv4PseudoHeader sourceIp destinationIp ipProtocolUdp
      (htons (data.length + 8)) ++
      (udpPacket sourceIp sourcePort destinationIp destinationPort data ++ data))).sum = 65535 := by
  have hsum := udpWords_sum_lt sourceIp sourcePort destinationIp destinationPort data
    (data.length + 8) 0 (by omega)
  rw [udpWords_eq] at hsum
  have hstored := residue_stored (by rw [udpFront_length]) hsum
  rw [udpPacket, udpCalculateChecksum, udpWords_eq, udpHeader]
  simpa only [udpFront, List.append_assoc] using hstored

end Udp

section Tcp
variable (sourceIp : Ip) (sourcePort : UInt16) (destinationIp : Ip) (destinationPort : UInt16)
  (seq ack : UInt32) (flags : TcpFlags) (data : List UInt8)

/-- All that the TCP checksum covers in front of it. -/
def tcpFront (length : ℕ) : List UInt8 :=
  ipv4PseudoHeader sourceIp destinationIp ipProtocolTcp (htons length) ++
    (htons sourcePort.toNat ++ htons destinationPort.toNat ++ htonl seq.toNat ++ htonl ack.toNat ++
      [0x50, flags.byte] ++ htons 32768)

theorem tcpFront_length (length : ℕ) :
    (tcpFront sourceIp sourcePort destinationIp destinationPort seq ack flags length).length = 28 := by
  rw [tcpFront, List.length_append, ipv4PseudoHeader_length _ _ _ _ rfl]
  rfl

theorem tcpWords_eq (checksum : ℕ) :
    tcpWords (tcpHeader sourcePort destinationPort seq ack flags checksum) sourceIp destinationIp
      data = leWords (tcpFront sourceIp sourcePort destinationIp destinationPort seq ack flags
        (data.length + 20) ++ stored 0 ++ (htons 0 ++ data)) := by
  have hpseudo := ipv4PseudoHeader_length sourceIp destinationIp ipProtocolTcp
    (htons (data.length + 20)) rfl
  have hcleared : (tcpHeader sourcePort destinationPort seq ack flags checksum).take 16 ++ [0, 0] ++
      (tcpHeader sourcePort destinationPort seq ack flags checksum).drop 18 =
      tcpHeader sourcePort destinationPort seq ack flags 0 := rfl
  have hall : tcpFront sourceIp sourcePort destinationIp destinationPort seq ack flags
      (data.length + 20) ++ stored 0 ++ (htons 0 ++ data) =
      ipv4PseudoHeader sourceIp destinationIp ipProtocolTcp (htons (data.length + 20)) ++
        (tcpHeader sourcePort destinationPort seq ack flags 0 ++ data) := by
    simp only [tcpFront, tcpHeader, List.append_assoc]
  rw [hall, leWords_append (by rw [hpseudo]), leWords_append (by simp), tcpWords, hcleared,
    List.append_assoc]

theorem tcpWords_sum_lt (checksum : ℕ) (h : data.length ≤ 65535) :
    (tcpWords (tcpHeader sourcePort destinationPort seq ack flags checksum) sourceIp destinationIp
      data).sum < 4294967296 := by
  have hsum := leWords_sum_le (tcpFront sourceIp sourcePort destinationIp destinationPort seq ack
    flags (data.length + 20) ++ stored 0 ++ (htons 0 ++ data))
  rw [List.length_append, List.length_append, List.length_append, tcpFront_length, stored_length,
    htons_length] at hsum
  rw [tcpWords_eq]
  omega

theorem tcpPacket_verifies (h : data.length + 20 ≤ 65535) :
    residue (leWords (ipv4PseudoHeader sourceIp destinationIp ipProtocolTcp
      (htons (data.length + 20)) ++ (tcpPacket sourceIp sourcePort destinationIp destinationPort seq
        ack flags data ++ data))).sum = 65535 := by
  have hsum := tcpWords_sum_lt sourceIp sourcePort destinationIp destinationPort seq ack flags data
    0 (by omega)
  rw [tcpWords_eq] at hsum
  have hstored := residue_stored (by rw [tcpFront_length]) hsum
  rw [tcpPacket, tcpCalculateChecksum, tcpWords_eq, tcpHeader]
  simpa only [tcpFront, List.append_assoc] using hstored

end Tcp

end DosKernel.Net
