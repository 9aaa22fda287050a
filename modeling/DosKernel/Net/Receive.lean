import DosKernel.Lib.Reading
import DosKernel.Net.Packets

/-! Receiving a frame. The card has put `n` bytes at address 0 and the memory behind them
holds anything; the functions read header fields and payload through pointers into the
frame. -/

namespace DosKernel.Net

open Lib Reading OnesComplement

/-- What becomes of a frame. A TCP segment with a right checksum is a SYN-ACK with its
acknowledgement number, or another one, with or without FIN. -/
inductive Verdict
  | ignored
  | arp
  | badChecksum
  | udp (port : ℕ)
  | synAck (port ack : ℕ)
  | segment (port : ℕ) (fin : Bool)
  deriving DecidableEq

/-- `udp_listeners` and `tcp_listeners`: the ports that have one, and for TCP what it
returns. -/
structure Sockets where
  udpListeners : Option (ℕ → Bool)
  tcpListeners : Option (ℕ → Option Bool)

/-! ### The code -/

def ntohs (m : ℕ → UInt8) (a : ℕ) : ℕ := 256 * (m a).toNat + (m (a + 1)).toNat

def ntohl (m : ℕ → UInt8) (a : ℕ) : ℕ := 65536 * ntohs m a + ntohs m (a + 2)

/-- The `uint16_t` at an address. -/
def word16 (m : ℕ → UInt8) (a : ℕ) : ℕ := (m a).toNat + 256 * (m (a + 1)).toNat

def bytesAt (m : ℕ → UInt8) (a n : ℕ) : List UInt8 := (List.range n).map fun i => m (a + i)

def ipAt (m : ℕ → UInt8) (a : ℕ) : Ip := Vector.ofFn fun i => m (a + i)

/-- The memory after a `uint16_t` was set to zero. -/
def clear (m : ℕ → UInt8) (a : ℕ) : ℕ → UInt8 :=
  Function.update (Function.update m a 0) (a + 1) 0

def sizeSub (a b : ℕ) : ℕ := (a + 4294967296 - b) % 4294967296

/-- `udp_calculate_checksum` on a packet in memory. -/
def udpChecksumAt (m : ℕ → UInt8) (ip packet data size : ℕ) : Reading ℕ := do
  let sourceIp ← touch (ipAt m (ip + 12)) (ip + 12) 4
  let destinationIp ← touch (ipAt m (ip + 16)) (ip + 16) 4
  let header ← touch (bytesAt m packet 8) packet 8
  let payload ← touch (bytesAt m data size) data size
  pure (udpCalculateChecksum header sourceIp destinationIp payload)

/-- `tcp_calculate_checksum` on a packet in memory. -/
def tcpChecksumAt (m : ℕ → UInt8) (ip packet data size : ℕ) : Reading ℕ := do
  let sourceIp ← touch (ipAt m (ip + 12)) (ip + 12) 4
  let destinationIp ← touch (ipAt m (ip + 16)) (ip + 16) 4
  let header ← touch (bytesAt m packet 20) packet 20
  let payload ← touch (bytesAt m data size) data size
  pure (tcpCalculateChecksum header sourceIp destinationIp payload)

def udpReceivePacket (k : Sockets) (m : ℕ → UInt8) (ip packet data : ℕ) : Reading Verdict :=
  match k.udpListeners with
  | none => pure .ignored
  | some listeners => do
    let port ← touch (ntohs m (packet + 2)) (packet + 2) 2
    let checksum ← touch (word16 m (packet + 6)) (packet + 6) 2
    let length ← touch (ntohs m (packet + 4)) (packet + 4) 2
    let expected ← udpChecksumAt (clear m (packet + 6)) ip packet data (sizeSub length 8)
    if checksum ≠ expected then pure .badChecksum
    else if listeners port then do
      touch () data (sizeSub length 8)
      pure (.udp port)
    else pure (.udp port)

/-- What the arguments of the `tcp_send_packet` that answers a segment read. -/
def readForReply (ip packet : ℕ) : Reading Unit := do
  touch () (ip + 12) 4
  touch () packet 2
  touch () (packet + 8) 4
  touch () (packet + 4) 4

/-- The listener of the port gets the payload of a segment, if there is any. -/
def tcpListen (listener : Option Bool) (ip packet data dataOffset dataLen : ℕ) : Reading Unit :=
  match listener with
  | none => pure ()
  | some answer =>
    if 0 < dataLen then do
      -- `data` is 20 behind the header, so the pointer does not wrap for a small offset
      touch () (data + 4 * dataOffset - 20) dataLen
      if answer then readForReply ip packet else pure ()
    else pure ()

/-- `tcp_receive_packet`, without what it does to the cache of connections. -/
def tcpReceivePacket (k : Sockets) (m : ℕ → UInt8) (ip packet data : ℕ) : Reading Verdict :=
  match k.tcpListeners with
  | none => pure .ignored
  | some listeners => do
    let port ← touch (ntohs m (packet + 2)) (packet + 2) 2
    let totalLength ← touch (ntohs m (ip + 2)) (ip + 2) 2
    let dataOffset ← touch ((m (packet + 12)).toNat / 16) (packet + 12) 1
    let checksum ← touch (word16 m (packet + 16)) (packet + 16) 2
    let expected ← tcpChecksumAt (clear m (packet + 16)) ip packet data (sizeSub totalLength 40)
    if checksum ≠ expected then pure .badChecksum
    else do
      let flags ← touch (m (packet + 13)).toNat (packet + 13) 1
      if flags.testBit 1 ∧ flags.testBit 4 then do
        readForReply ip packet
        let ack ← touch (ntohl m (packet + 8)) (packet + 8) 4
        pure (.synAck port ack)
      else do
        tcpListen (listeners port) ip packet data dataOffset
          (sizeSub totalLength (20 + 4 * dataOffset))
        if flags.testBit 0 then readForReply ip packet else pure ()
        pure (.segment port (flags.testBit 0))

/-- `ipv4_receive_packet`; `icmp_receive_packet` does nothing. -/
def ipv4ReceivePacket (k : Sockets) (m : ℕ → UInt8) (packet data : ℕ) : Reading Verdict := do
  let version ← touch ((m packet).toNat / 16) packet 1
  if version ≠ 4 then pure .ignored
  else do
    let checksum ← touch (word16 m (packet + 10)) (packet + 10) 2
    let header ← touch (bytesAt (clear m (packet + 10)) packet 20) packet 20
    if checksum ≠ ipv4CalculateChecksum header then pure .badChecksum
    else do
      let protocol ← touch (m (packet + 9)) (packet + 9) 1
      if protocol = ipProtocolUdp then udpReceivePacket k m packet data (data + 8)
      else if protocol = ipProtocolTcp then tcpReceivePacket k m packet data (data + 20)
      else pure .ignored

/-- `ETHERTYPE_IPV4` and `ETHERTYPE_ARP`. -/
def ethertypeIpv4 : ℕ := 0x0800

def ethertypeArp : ℕ := 0x0806

def ethernetProcessPacket (k : Sockets) (m : ℕ → UInt8) : Reading Verdict := do
  let ethertype ← touch (ntohs m 12) 12 2
  if ethertype = ethertypeArp then pure .arp
  else if ethertype = ethertypeIpv4 then ipv4ReceivePacket k m 14 34
  else pure .ignored

/-! ### When the reads stay inside the frame -/

/-- The header checksum of the IPv4 packet is right. -/
def HeaderVerified (m : ℕ → UInt8) : Prop :=
  word16 m 24 = ipv4CalculateChecksum (bytesAt (clear m 24) 14 20)

instance (m : ℕ → UInt8) : Decidable (HeaderVerified m) := inferInstanceAs (Decidable (_ = _))

def SegmentVerified (m : ℕ → UInt8) : Prop :=
  word16 m 50 = (tcpChecksumAt (clear m 50) 14 34 54 (sizeSub (ntohs m 16) 40)).value

/-- The UDP length covers the header and ends inside the frame. -/
def UdpFits (m : ℕ → UInt8) (n : ℕ) : Prop :=
  42 ≤ n ∧ 8 ≤ ntohs m 38 ∧ 34 + ntohs m 38 ≤ n

/-- The total length covers the two headers and ends inside the frame; where a listener
gets the payload, the data offset lies inside the total length as well. -/
def TcpFits (listeners : ℕ → Option Bool) (m : ℕ → UInt8) (n : ℕ) : Prop :=
  54 ≤ n ∧ 40 ≤ ntohs m 16 ∧ 14 + ntohs m 16 ≤ n ∧
    (SegmentVerified m → ¬ ((m 47).toNat.testBit 1 ∧ (m 47).toNat.testBit 4) →
      (listeners (ntohs m 36)).isSome → 20 + 4 * ((m 46).toNat / 16) ≤ ntohs m 16)

/-- The lengths in a frame of `n` bytes agree with each other. -/
def Fits (k : Sockets) (m : ℕ → UInt8) (n : ℕ) : Prop :=
  14 ≤ n ∧ (ntohs m 12 = ethertypeIpv4 → 15 ≤ n ∧ ((m 14).toNat / 16 = 4 → 34 ≤ n ∧
    (HeaderVerified m →
      (m 23 = ipProtocolUdp → k.udpListeners.isSome → UdpFits m n) ∧
      (m 23 = ipProtocolTcp → ∀ listeners, k.tcpListeners = some listeners →
        TcpFits listeners m n))))

/-- A length in a frame is a `uint16_t`, and so is that of the frame: a difference of two
lengths that wraps is behind the end of every frame. -/
theorem sizeSub_le_iff {a b c n : ℕ} (ha : a < 65536) (hb : b ≤ 80) (hc : b ≤ c + 80)
    (hn : n < 65536) : c + sizeSub a b ≤ n ↔ b ≤ a ∧ c + (a - b) ≤ n := by
  rw [sizeSub]
  by_cases h : b ≤ a
  · rw [show a + 4294967296 - b = (a - b) + 4294967296 by omega, Nat.add_mod_right,
      Nat.mod_eq_of_lt (by omega)]
    omega
  · rw [Nat.mod_eq_of_lt (by omega)]
    omega

theorem ntohs_lt (m : ℕ → UInt8) (a : ℕ) : ntohs m a < 65536 := by
  have h := (m a).toNat_lt
  have h' := (m (a + 1)).toNat_lt
  rw [ntohs]
  omega

section Inside
variable {k : Sockets} {m : ℕ → UInt8} {n : ℕ}

theorem udpChecksumAt_inside (m : ℕ → UInt8) (ip packet data size : ℕ) :
    (udpChecksumAt m ip packet data size).Inside n ↔
      ip + 20 ≤ n ∧ packet + 8 ≤ n ∧ data + size ≤ n := by
  simp only [udpChecksumAt, inside_bind, inside_touch, inside_pure, and_true]
  omega

theorem tcpChecksumAt_inside (m : ℕ → UInt8) (ip packet data size : ℕ) :
    (tcpChecksumAt m ip packet data size).Inside n ↔
      ip + 20 ≤ n ∧ packet + 20 ≤ n ∧ data + size ≤ n := by
  simp only [tcpChecksumAt, inside_bind, inside_touch, inside_pure, and_true]
  omega

theorem udpReceivePacket_inside {listeners : ℕ → Bool} (hk : k.udpListeners = some listeners)
    (hn : n < 65536) : (udpReceivePacket k m 14 34 42).Inside n ↔ UdpFits m n := by
  have hlen := ntohs_lt m 38
  have hdata := sizeSub_le_iff (c := 42) (n := n) hlen (show 8 ≤ 80 by decide) (by omega) hn
  rw [udpReceivePacket, hk, UdpFits]
  simp only [inside_bind, inside_touch, inside_ite, inside_pure, udpChecksumAt_inside, hdata,
    and_true, implies_true]
  constructor
  · rintro ⟨-, hheader, -, ⟨-, -, hlength, hend⟩, -⟩
    omega
  · rintro ⟨hheader, hlength, hend⟩
    exact ⟨by omega, by omega, by omega, ⟨by omega, by omega, hlength, by omega⟩, trivial,
      fun _ _ => ⟨hlength, by omega⟩⟩

theorem readForReply_inside (h : 54 ≤ n) : (readForReply 14 34).Inside n := by
  simp only [readForReply, inside_bind, inside_touch]
  omega

theorem tcpListen_inside (listener : Option Bool) (dataOffset : ℕ) {total : ℕ}
    (hoffset : dataOffset < 16) (htotal : total < 65536) (hn : n < 65536) (h54 : 54 ≤ n)
    (hend : 14 + total ≤ n) :
    (tcpListen listener 14 34 54 dataOffset (sizeSub total (20 + 4 * dataOffset))).Inside n ↔
      (listener.isSome → 20 + 4 * dataOffset ≤ total) := by
  have hdata := sizeSub_le_iff (c := 54 + 4 * dataOffset - 20) (n := n) htotal
    (show 20 + 4 * dataOffset ≤ 80 by omega) (by omega) hn
  cases listener with
  | none => simp [tcpListen]
  | some answer =>
    have hreply := readForReply_inside h54
    have hpos : ¬ 0 < sizeSub total (20 + 4 * dataOffset) → 20 + 4 * dataOffset ≤ total := by
      rw [sizeSub]
      omega
    simp only [tcpListen, inside_bind, inside_touch, inside_ite, inside_pure, hdata, hreply,
      Option.isSome_some, forall_const, and_true, implies_true]
    constructor
    · intro h
      by_cases hdataLen : 0 < sizeSub total (20 + 4 * dataOffset)
      · exact (h hdataLen).1
      · exact hpos hdataLen
    · intro h _
      exact ⟨h, by omega⟩

theorem tcpReceivePacket_inside {listeners : ℕ → Option Bool}
    (hk : k.tcpListeners = some listeners) (hn : n < 65536) :
    (tcpReceivePacket k m 14 34 54).Inside n ↔ TcpFits listeners m n := by
  have hlen := ntohs_lt m 16
  have hoffset : (m 46).toNat / 16 < 16 := by
    have h := (m 46).toNat_lt
    omega
  have hdata := sizeSub_le_iff (c := 54) (n := n) hlen (show 40 ≤ 80 by decide) (by omega) hn
  rw [tcpReceivePacket, hk, TcpFits, SegmentVerified]
  simp only [inside_bind, inside_touch, inside_ite, inside_pure, tcpChecksumAt_inside, hdata,
    and_true, true_and, implies_true]
  constructor
  · rintro ⟨-, -, -, hheader, ⟨-, -, hlength, hend⟩, hrest⟩
    refine ⟨by omega, hlength, by omega, fun hverified hflags => ?_⟩
    have hlisten := ((hrest (not_not.mpr hverified)).2.2 hflags).1
    exact (tcpListen_inside _ _ hoffset hlen hn (by omega) (by omega)).mp hlisten
  · rintro ⟨hheader, hlength, hend, hlisten⟩
    have hreply := readForReply_inside hheader
    refine ⟨by omega, by omega, by omega, by omega, ⟨by omega, by omega, hlength, by omega⟩, ?_⟩
    intro hverified
    refine ⟨by omega, fun _ => ⟨hreply, by omega⟩, fun hflags => ⟨?_, fun _ => hreply⟩⟩
    exact (tcpListen_inside _ _ hoffset hlen hn hheader hend).mpr
      (hlisten (not_not.mp hverified) hflags)

theorem ipv4ReceivePacket_inside (hn : n < 65536) : (ipv4ReceivePacket k m 14 34).Inside n ↔
    15 ≤ n ∧ ((m 14).toNat / 16 = 4 → 34 ≤ n ∧ (HeaderVerified m →
      (m 23 = ipProtocolUdp → k.udpListeners.isSome → UdpFits m n) ∧
      (m 23 = ipProtocolTcp → ∀ listeners, k.tcpListeners = some listeners →
        TcpFits listeners m n))) := by
  have hudp : (udpReceivePacket k m 14 34 42).Inside n ↔
      (k.udpListeners.isSome → UdpFits m n) := by
    cases hk : k.udpListeners with
    | none => simp [udpReceivePacket, hk]
    | some listeners => simp [udpReceivePacket_inside hk hn]
  have htcp : (tcpReceivePacket k m 14 34 54).Inside n ↔
      ∀ listeners, k.tcpListeners = some listeners → TcpFits listeners m n := by
    cases hk : k.tcpListeners with
    | none => simp [tcpReceivePacket, hk]
    | some listeners => simp [tcpReceivePacket_inside hk hn]
  have hprotocols : ipProtocolUdp ≠ ipProtocolTcp := by decide
  rw [ipv4ReceivePacket, HeaderVerified]
  simp only [inside_bind, inside_touch, inside_ite, inside_pure, hudp, htcp, and_true, true_and,
    implies_true, ne_eq, not_not]
  constructor
  · rintro ⟨hversion, hrest⟩
    refine ⟨hversion, fun h4 => ?_⟩
    obtain ⟨-, hheader, hrest⟩ := hrest h4
    refine ⟨hheader, fun hverified => ?_⟩
    obtain ⟨-, hu, ht⟩ := hrest hverified
    exact ⟨hu, fun hp => ht (by rw [hp]; exact hprotocols.symm) hp⟩
  · rintro ⟨hversion, hrest⟩
    refine ⟨hversion, fun h4 => ?_⟩
    obtain ⟨hheader, hrest⟩ := hrest h4
    refine ⟨by omega, hheader, fun hverified => ⟨by omega, ?_⟩⟩
    exact ⟨(hrest hverified).1, fun _ => (hrest hverified).2⟩

end Inside

/-- The receive functions read inside the frame and hand out ranges inside it, exactly
when the lengths in the frame agree; the card gives the length of the frame as a
`uint16_t`. -/
theorem frame_inside_iff (k : Sockets) (m : ℕ → UInt8) (length : UInt16) :
    (ethernetProcessPacket k m).Inside length.toNat ↔ Fits k m length.toNat := by
  have htypes : ethertypeIpv4 ≠ ethertypeArp := by decide
  rw [ethernetProcessPacket, Fits]
  simp only [inside_bind, inside_touch, inside_ite, inside_pure,
    ipv4ReceivePacket_inside length.toNat_lt, and_true, true_and, implies_true]
  constructor
  · rintro ⟨hheader, hrest⟩
    exact ⟨hheader, fun h => hrest (by rw [h]; exact htypes) h⟩
  · rintro ⟨hheader, hrest⟩
    exact ⟨hheader, fun _ => hrest⟩

/-- A frame of 60 bytes with an empty UDP packet whose length field says 65535. -/
def udpFrame (a : ℕ) : UInt8 :=
  (List.replicate 12 0 ++ [8, 0] ++ [0x45, 0, 0, 28, 0, 0, 0, 0, 64, 17, 0x7a, 0xd2] ++
    List.replicate 12 0 ++ [255, 255])[a]?.getD 0

/-- All that the length says is read for the checksum. -/
theorem frame_read_outside :
    ¬ ∀ (k : Sockets) (m : ℕ → UInt8) (length : UInt16),
      (ethernetProcessPacket k m).Inside length.toNat := by
  intro h
  have hinside := h ⟨some fun _ => true, none⟩ udpFrame 60
  simp only [ethernetProcessPacket, inside_bind, inside_ite] at hinside
  have hipv4 := hinside.2.2 (by decide) |>.1 (by decide)
  obtain ⟨-, hfits⟩ := (ipv4ReceivePacket_inside (by decide)).mp hipv4
  have hudp := ((hfits (by decide)).2 (by decide)).1 (by decide) rfl
  exact absurd hudp.2.2 (by decide)

end DosKernel.Net
