import DosKernel.Net.Checksums

/-! The acknowledgement numbers in the replies of `tcp_receive_packet`. Each place that sends a
reply counts one of SYN, payload and FIN, so a segment that has two of them is acknowledged too
low by its last reply. -/

namespace DosKernel.Net

open Lib Reading

/-! ### The code -/

def synFlag (m : ℕ → UInt8) (packet : ℕ) : Bool := (m (packet + 13)).toNat.testBit 1

def ackFlag (m : ℕ → UInt8) (packet : ℕ) : Bool := (m (packet + 13)).toNat.testBit 4

def finFlag (m : ℕ → UInt8) (packet : ℕ) : Bool := (m (packet + 13)).toNat.testBit 0

/-- What went to `ethernet_send_packet`, and `syn_c`. -/
structure Replies where
  sent : List (List UInt8)
  synC : UInt32

/-- `tcp_send_packet` as `tcp_receive_packet` calls it: the ports are exchanged, the sequence
number is the acknowledgement number of the segment, and `extra` is added to its sequence
number. -/
def Replies.reply (r : Replies) (driver : Driver) (arpGetMac : Ip → Option Mac) (m : ℕ → UInt8)
    (ip packet extra : ℕ) (fin : Bool) : Replies :=
  let result := tcpSendPacket driver arpGetMac r.synC driver.ip
    (UInt16.ofNat (ntohs m (packet + 2))) (ipAt m (ip + 12)) (UInt16.ofNat (ntohs m packet))
    (UInt32.ofNat (ntohl m (packet + 8))) (UInt32.ofNat (ntohl m (packet + 4) + extra))
    ⟨false, true, fin, false⟩ []
  ⟨r.sent ++ (result.1.map Prod.snd).toList, result.2⟩

/-- There is a payload, and the listener of the port returns `true` for it. -/
def accepts (listeners : ℕ → Option (List UInt8 → Bool)) (m : ℕ → UInt8) (ip packet data : ℕ) : Bool :=
  let dataOffset := (m (packet + 12)).toNat / 16
  let dataLen := sizeSub (ntohs m (ip + 2)) (20 + 4 * dataOffset)
  match listeners (ntohs m (packet + 2)) with
  | none => false
  | some listener =>
    decide (0 < dataLen) && listener (bytesAt m (data + 4 * dataOffset - 20) dataLen)

/-- `tcp_receive_packet`: the replies. -/
def tcpReceiveReplies (driver : Driver) (arpGetMac : Ip → Option Mac)
    (tcpListeners : Option (ℕ → Option (List UInt8 → Bool))) (synC : UInt32) (m : ℕ → UInt8)
    (ip packet data : ℕ) : Replies :=
  match tcpListeners with
  | none => ⟨[], synC⟩
  | some listeners =>
    let dataLen := sizeSub (ntohs m (ip + 2)) (20 + 4 * ((m (packet + 12)).toNat / 16))
    let expected := (tcpChecksumAt (clear m (packet + 16)) ip packet data
      (sizeSub (ntohs m (ip + 2)) 40)).value
    if word16 m (packet + 16) ≠ expected then ⟨[], synC⟩
    else if synFlag m packet ∧ ackFlag m packet then
      Replies.reply ⟨[], synC⟩ driver arpGetMac m ip packet 1 false
    else
      let r :=
        if accepts listeners m ip packet data then
          Replies.reply ⟨[], synC⟩ driver arpGetMac m ip packet dataLen false
        else ⟨[], synC⟩
      -- a FIN without ACK gets a FIN-ACK, and one with ACK an ACK
      if finFlag m packet then r.reply driver arpGetMac m ip packet 1 (!ackFlag m packet) else r

/-! ### The number that is due -/

/-- A well-formed segment: its checksum is right, the header has at least five words and ends
inside the packet. -/
structure SegmentAt (m : ℕ → UInt8) (ip packet : ℕ) : Prop where
  offset : 5 ≤ (m (packet + 12)).toNat / 16
  total : 20 + 4 * ((m (packet + 12)).toNat / 16) ≤ ntohs m (ip + 2)
  checksum : word16 m (packet + 16) = (tcpChecksumAt (clear m (packet + 16)) ip packet (packet + 20)
    (sizeSub (ntohs m (ip + 2)) 40)).value

section Segment
variable (m : ℕ → UInt8) (ip packet : ℕ)

def payloadLength : ℕ := ntohs m (ip + 2) - (20 + 4 * ((m (packet + 12)).toNat / 16))

/-- The sequence numbers that the segment takes. -/
def counted : ℕ :=
  payloadLength m ip packet + (synFlag m packet).toNat + (finFlag m packet).toNat

/-- The sequence number behind the segment. -/
def dueAck : ℕ := (ntohl m (packet + 4) + counted m ip packet) % 4294967296

def ackNumber (bytes : List UInt8) : List UInt8 := (bytes.drop 28).take 4

/-- The last reply carries the number that is due. -/
def AcknowledgesAll (driver : Driver) (arpGetMac : Ip → Option Mac)
    (tcpListeners : Option (ℕ → Option (List UInt8 → Bool))) (synC : UInt32) : Prop :=
  ∀ bytes, (tcpReceiveReplies driver arpGetMac tcpListeners synC m ip packet
    (packet + 20)).sent.getLast? = some bytes → ackNumber bytes = htonl (dueAck m ip packet)

/-- A packet to the address gets out. -/
def Resolves (driver : Driver) (arpGetMac : Ip → Option Mac) (destinationIp : Ip) : Prop :=
  destinationIp = Vector.replicate 4 255 ∨
    (ipv4IsCidrSubnet destinationIp driver.ip driver.netmask = true → arpGetMac destinationIp ≠ none) ∧
      arpGetMac driver.gateway ≠ none

/-- What is sent counts once: a SYN-ACK has no payload and no FIN, another FIN neither payload
nor SYN, and an accepted payload no SYN. -/
def CountsOnce (listeners : ℕ → Option (List UInt8 → Bool)) : Prop :=
  if synFlag m packet ∧ ackFlag m packet then
    payloadLength m ip packet = 0 ∧ finFlag m packet = false
  else if finFlag m packet then payloadLength m ip packet = 0 ∧ synFlag m packet = false
  else accepts listeners m ip packet (packet + 20) = true → synFlag m packet = false

end Segment

/-! ### What a reply carries -/

section Reply
variable {driver : Driver} {arpGetMac : Ip → Option Mac} {m : ℕ → UInt8} {ip packet : ℕ}

theorem htonl_inj {v w : ℕ} (hv : v < 4294967296) (hw : w < 4294967296) :
    htonl v = htonl w ↔ v = w := by
  constructor
  · intro h
    simp only [htonl, htons, List.cons_append, List.nil_append, List.cons.injEq, and_true] at h
    obtain ⟨h3, h2, h1, h0⟩ := h
    have hbyte : ∀ a b : ℕ, UInt8.ofNat a = UInt8.ofNat b → a % 256 = b % 256 := by
      intro a b hab
      have htoNat := congrArg UInt8.toNat hab
      rwa [UInt8.toNat_ofNat', UInt8.toNat_ofNat'] at htoNat
    have h3' := hbyte _ _ h3
    have h2' := hbyte _ _ h2
    have h1' := hbyte _ _ h1
    have h0' := hbyte _ _ h0
    omega
  · exact congrArg htonl

theorem ipv4SendPacket_of_resolves {sourceIp destinationIp : Ip} {protocol : UInt8}
    (protocolPacket data : List UInt8) (h : Resolves driver arpGetMac destinationIp) :
    (ipv4SendPacket driver arpGetMac sourceIp destinationIp protocol protocolPacket data).map Prod.snd =
      some (ipv4Packet sourceIp destinationIp protocol protocolPacket data) := by
  unfold ipv4SendPacket
  dsimp only
  by_cases hbroadcast : destinationIp = Vector.replicate 4 255
  · rw [if_pos hbroadcast]
    rfl
  · obtain ⟨hsubnet, hgateway⟩ := h.resolve_left hbroadcast
    obtain ⟨mac, hmac⟩ := Option.ne_none_iff_exists'.mp hgateway
    rw [if_neg hbroadcast, if_neg fun hfail => hsubnet hfail.1 hfail.2, hmac]
    rfl

theorem ipv4SendPacket_of_not_resolves {sourceIp destinationIp : Ip} {protocol : UInt8}
    (protocolPacket data : List UInt8) (h : ¬ Resolves driver arpGetMac destinationIp) :
    ipv4SendPacket driver arpGetMac sourceIp destinationIp protocol protocolPacket data = none := by
  unfold ipv4SendPacket
  dsimp only
  obtain ⟨hbroadcast, hrest⟩ := not_or.mp h
  rw [if_neg hbroadcast]
  by_cases hfail : ipv4IsCidrSubnet destinationIp driver.ip driver.netmask = true ∧
      arpGetMac destinationIp = none
  · rw [if_pos hfail]
  · have hgateway : arpGetMac driver.gateway = none := by
      by_contra hfound
      exact hrest ⟨fun hsubnet hnone => hfail ⟨hsubnet, hnone⟩, hfound⟩
    rw [if_neg hfail, hgateway]
    rfl

theorem ackNumber_tcp (sourceIp destinationIp : Ip) (sourcePort destinationPort : UInt16)
    (seq ack : UInt32) (flags : TcpFlags) (data : List UInt8) :
    ackNumber (ipv4Packet sourceIp destinationIp ipProtocolTcp
      (tcpPacket sourceIp sourcePort destinationIp destinationPort seq ack flags data) data) =
      htonl ack.toNat := by
  unfold ackNumber
  rw [show 28 = 20 + 8 from rfl, ← List.drop_drop, ipv4Packet_drop]
  rfl

theorem payloadLength_lt (m : ℕ → UInt8) (ip packet : ℕ) : payloadLength m ip packet < 65536 :=
  (Nat.sub_le _ _).trans_lt (ntohs_lt m (ip + 2))

theorem counted_lt (m : ℕ → UInt8) (ip packet : ℕ) : counted m ip packet < 65538 := by
  have hlength := payloadLength_lt m ip packet
  have hsyn := (synFlag m packet).toNat_le
  have hfin := (finFlag m packet).toNat_le
  unfold counted
  omega

/-- A reply that gets out is the last one, and acknowledges what it counts. -/
theorem reply_sent (r : Replies) (packet extra : ℕ) (fin : Bool)
    (h : Resolves driver arpGetMac (ipAt m (ip + 12))) :
    ∃ bytes, (r.reply driver arpGetMac m ip packet extra fin).sent = r.sent ++ [bytes] ∧
      ackNumber bytes = htonl ((ntohl m (packet + 4) + extra) % 4294967296) := by
  unfold Replies.reply tcpSendPacket
  dsimp only
  rw [ipv4SendPacket_of_resolves _ _ h]
  exact ⟨_, rfl, ackNumber_tcp _ _ _ _ _ _ _ _⟩

theorem reply_lost (r : Replies) (extra : ℕ) (fin : Bool)
    (h : ¬ Resolves driver arpGetMac (ipAt m (ip + 12))) :
    (r.reply driver arpGetMac m ip packet extra fin).sent = r.sent := by
  unfold Replies.reply tcpSendPacket
  dsimp only
  rw [ipv4SendPacket_of_not_resolves _ _ h]
  exact List.append_nil _

/-- Such a reply is the right one when it counts what the segment takes. -/
theorem reply_acknowledges (r : Replies) {extra : ℕ} (fin : Bool)
    (h : Resolves driver arpGetMac (ipAt m (ip + 12))) (hextra : extra < 65536) :
    (∀ bytes, (r.reply driver arpGetMac m ip packet extra fin).sent.getLast? = some bytes →
      ackNumber bytes = htonl (dueAck m ip packet)) ↔ extra = counted m ip packet := by
  have hcounted := counted_lt m ip packet
  obtain ⟨bytes, hsent, hack⟩ := reply_sent r packet extra fin h
  rw [hsent, List.getLast?_concat]
  simp only [Option.some.injEq, forall_eq', hack]
  rw [dueAck, htonl_inj (Nat.mod_lt _ (by decide)) (Nat.mod_lt _ (by decide))]
  omega

end Reply

theorem sizeSub_of_le {a b : ℕ} (hba : b ≤ a) (ha : a < 65536) : sizeSub a b = a - b := by
  obtain ⟨n, rfl⟩ := Nat.exists_eq_add_of_le' hba
  rw [sizeSub_add n b ha, Nat.add_sub_cancel]

/-- The last reply to a well-formed segment carries the number behind the segment exactly when
no reply gets out or the segment counts once. -/
theorem acknowledgesAll_iff (driver : Driver) (arpGetMac : Ip → Option Mac)
    (tcpListeners : Option (ℕ → Option (List UInt8 → Bool))) (synC : UInt32) (m : ℕ → UInt8)
    (ip packet : ℕ) (h : SegmentAt m ip packet) :
    AcknowledgesAll m ip packet driver arpGetMac tcpListeners synC ↔
      ∀ listeners, tcpListeners = some listeners → Resolves driver arpGetMac (ipAt m (ip + 12)) →
        CountsOnce m ip packet listeners := by
  have hlength := payloadLength_lt m ip packet
  have hsize : sizeSub (ntohs m (ip + 2)) (20 + 4 * ((m (packet + 12)).toNat / 16)) =
      payloadLength m ip packet := sizeSub_of_le h.total (ntohs_lt m (ip + 2))
  unfold AcknowledgesAll tcpReceiveReplies
  cases tcpListeners with
  | none => simp
  | some listeners =>
    simp only [Option.some.injEq, forall_eq']
    rw [if_neg (not_not.mpr h.checksum), hsize]
    by_cases hresolves : Resolves driver arpGetMac (ipAt m (ip + 12))
    · simp only [hresolves, forall_const]
      unfold CountsOnce
      by_cases hsynAck : synFlag m packet = true ∧ ackFlag m packet = true
      · rw [if_pos hsynAck, if_pos hsynAck, reply_acknowledges _ _ hresolves (by decide), counted,
          hsynAck.1]
        cases finFlag m packet <;> simp
      · rw [if_neg hsynAck, if_neg hsynAck]
        by_cases hfin : finFlag m packet = true
        · rw [if_pos hfin, if_pos hfin, reply_acknowledges _ _ hresolves (by decide), counted, hfin]
          cases synFlag m packet <;> simp
        · rw [if_neg hfin, if_neg hfin]
          by_cases haccepts : accepts listeners m ip packet (packet + 20) = true
          · rw [if_pos haccepts, reply_acknowledges _ _ hresolves hlength, counted,
              Bool.eq_false_iff.mpr hfin]
            cases synFlag m packet <;> simp [haccepts]
          · rw [if_neg haccepts]
            simp [haccepts]
    · simp only [hresolves, false_implies, iff_true]
      have hnone : ∀ (r : Replies) (extra : ℕ) (fin : Bool), r.sent = [] →
          (r.reply driver arpGetMac m ip packet extra fin).sent = [] := by
        intro r extra fin hr
        rw [reply_lost r extra fin hresolves, hr]
      intro bytes
      have hsent : ∀ r : Replies, r.sent = [] → r.sent.getLast? ≠ some bytes := by
        intro r hr
        simp [hr]
      refine fun hlast => absurd hlast (hsent _ ?_)
      split_ifs <;> simp [hnone]

/-- The end of a response: one byte with FIN and ACK, from the address 0.0.0.0. -/
def lastSegment (a : ℕ) : UInt8 :=
  ([0x45, 0, 0, 41] ++ List.replicate 27 0 ++ [1, 0x50, 0x11, 0, 0, 0xAF, 0xD2])[a]?.getD 0

theorem lastSegment_segmentAt : SegmentAt lastSegment 0 20 := by
  constructor
  · decide
  · decide
  · decide

/-- A host that knows every address and accepts everything. -/
def ackDriver : Driver := ⟨Vector.replicate 4 10, Vector.replicate 4 255, Vector.replicate 4 1⟩

def ackMac (_ : Ip) : Option Mac := some (Vector.replicate 6 2)

theorem acknowledgesAll_iff_lastSegment :
    SegmentAt lastSegment 0 20 ∧
      (AcknowledgesAll lastSegment 0 20 ackDriver ackMac (some fun _ => some fun _ => true) 0 ↔
        ∀ listeners, (some fun _ => some fun _ => true) = some listeners →
          Resolves ackDriver ackMac (ipAt lastSegment (0 + 12)) →
          CountsOnce lastSegment 0 20 listeners) :=
  ⟨lastSegment_segmentAt, acknowledgesAll_iff ackDriver ackMac _ 0 lastSegment 0 20
    lastSegment_segmentAt⟩

/-- The last reply acknowledges 1, and not 2. -/
theorem lastSegment_acknowledged_low :
    ¬ ∀ (driver : Driver) (arpGetMac : Ip → Option Mac)
      (tcpListeners : Option (ℕ → Option (List UInt8 → Bool))) (synC : UInt32) (m : ℕ → UInt8)
      (ip packet : ℕ), SegmentAt m ip packet →
      AcknowledgesAll m ip packet driver arpGetMac tcpListeners synC := by
  intro h
  have hall := h ackDriver ackMac (some fun _ => some fun _ => true) 0 lastSegment 0 20
    lastSegment_segmentAt
  have hsynAck : ¬ (synFlag lastSegment 20 = true ∧ ackFlag lastSegment 20 = true) := by decide
  have haccepts : accepts (fun _ => some fun _ => true) lastSegment 0 20 (20 + 20) = true := by decide
  have hfin : finFlag lastSegment 20 = true := by decide
  unfold AcknowledgesAll tcpReceiveReplies at hall
  dsimp only at hall
  rw [if_neg (not_not.mpr lastSegment_segmentAt.checksum), if_neg hsynAck, if_pos haccepts,
    if_pos hfin, reply_acknowledges _ _ (Or.inr ⟨by simp [ackMac], by simp [ackMac]⟩) (by decide)] at hall
  exact absurd hall (by decide)

end DosKernel.Net
