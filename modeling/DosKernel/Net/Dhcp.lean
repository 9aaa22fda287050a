import DosKernel.Lib.History
import DosKernel.Lib.Runs
import DosKernel.Net.Packets

/-! The DHCP client. `dhcp_init` installs the listener, sends a discover, waits for an
offer and requests the first offered address that nobody answers for. The listener takes
every reply whose options say offer or acknowledge. -/

namespace DosKernel.Net

open Lib

/-- `dhcp_packet`, as far as the listener reads it, with `xid` in host order. The bytes
behind `options` are those behind the packet. -/
structure DhcpPacket where
  op : UInt8
  xid : ℕ
  yiaddr : Ip
  siaddr : Ip
  giaddr : Ip
  options : ℕ → UInt8

structure DhcpOffer where
  serverIp : Ip
  offeredIp : Ip

structure Ipv4Config where
  ip : Ip
  netmask : Ip
  gateway : Ip
  dns : Ip
  leaseTime : ℕ

inductive DhcpMessage
  | offer
  | ack
  deriving DecidableEq

/-- Where `dhcp_init` is: not begun, at time `t` of its wait for an offer, looking whether
somebody answers for the offer at `i`, or over. -/
inductive DhcpPhase
  | idle
  | waiting (t : ℕ)
  | checking (i : ℕ)
  | done
  deriving DecidableEq

/-- A discover is sent, or a request for an address, or a packet is received that finds
one configuration and leaves another. -/
inductive DhcpEvent
  | discover (packet : DhcpPacket)
  | request (serverIp requestedIp : Ip) (packet : DhcpPacket)
  | received (packet : DhcpPacket) (before after : Ipv4Config)

/-- `offers` up to `offer_count`, `driver->ipv4`, and what happened. -/
structure Dhcp where
  phase : DhcpPhase
  offers : List DhcpOffer
  ipv4 : Ipv4Config
  history : List DhcpEvent

/-! ### Options -/

/-- `DHCPBootOperation`. -/
def dhcpBootOpRequest : UInt8 := 0x01

def dhcpBootOpReply : UInt8 := 0x02

/-- `DHCPOperation`, as far as the client sends or knows it. -/
def dhcpOpDiscover : UInt8 := 0x01

def dhcpOpOffer : UInt8 := 0x02

def dhcpOpRequest : UInt8 := 0x03

def dhcpOpAck : UInt8 := 0x05

/-- `DHCPOption`, likewise. -/
def dhcpOptionSubnetMask : UInt8 := 0x01

def dhcpOptionRouter : UInt8 := 0x03

def dhcpOptionDnsServer : UInt8 := 0x06

def dhcpOptionDomainName : UInt8 := 0x0f

def dhcpOptionRequestedIp : UInt8 := 0x32

def dhcpOptionLeaseTime : UInt8 := 0x33

def dhcpOptionMessageType : UInt8 := 0x35

def dhcpOptionServerIdentifier : UInt8 := 0x36

def dhcpOptionParameterRequestList : UInt8 := 0x37

def dhcpOptionEnd : UInt8 := 0xff

/-- `htonl` is undone: the transaction id of both packets that are sent. -/
def dhcpXid : ℕ := 0x12345678

/-- The places that the loops over the options come to. Each step goes on by at least two
bytes, so that 157 of them are enough. -/
def optionPlaces (options : ℕ → UInt8) : (fuel op : ℕ) → List ℕ
  | 0, _ => []
  | fuel + 1, op =>
    if options op = dhcpOptionEnd then []
    else if 312 ≤ op then []
    else op :: optionPlaces options fuel (op + ((options (op + 1)).toNat + 2))

theorem optionPlaces_fuel (options : ℕ → UInt8) (fuel : ℕ) : ∀ op, 312 < op + 2 * fuel →
    optionPlaces options (fuel + 1) op = optionPlaces options fuel op := by
  induction fuel with
  | zero =>
    intro op hop
    rw [optionPlaces, optionPlaces]
    simp only [if_pos (show 312 ≤ op by omega), ite_self]
  | succ fuel ih =>
    intro op hop
    rw [optionPlaces, ih _ (by omega)]
    rfl

/-- The four bytes of the option at `op`. -/
def optionIp (options : ℕ → UInt8) (op : ℕ) : Ip :=
  #v[options (op + 2), options (op + 3), options (op + 4), options (op + 5)]

/-- `op[2] << 24 | op[3] << 16 | op[4] << 8 | op[5]`. -/
def optionWord (options : ℕ → UInt8) (op : ℕ) : ℕ :=
  16777216 * (options (op + 2)).toNat + 65536 * (options (op + 3)).toNat +
    256 * (options (op + 4)).toNat + (options (op + 5)).toNat

/-! ### The code -/

/-- The body of the loop in `dhcp_process_ack`. -/
def applyOption (options : ℕ → UInt8) (c : Ipv4Config) (op : ℕ) : Ipv4Config :=
  if options op = dhcpOptionSubnetMask then { c with netmask := optionIp options op }
  else if options op = dhcpOptionRouter then { c with gateway := optionIp options op }
  else if options op = dhcpOptionDnsServer then { c with dns := optionIp options op }
  else if options op = dhcpOptionLeaseTime then { c with leaseTime := optionWord options op }
  else c

def dhcpProcessAck (c : Ipv4Config) (packet : DhcpPacket) : Ipv4Config :=
  (optionPlaces packet.options 157 0).foldl (applyOption packet.options)
    { c with ip := packet.yiaddr, gateway := packet.giaddr }

def dhcpProcessOffer (offers : List DhcpOffer) (packet : DhcpPacket) : List DhcpOffer :=
  if 2 ≤ offers.length then offers else offers ++ [⟨packet.siaddr, packet.yiaddr⟩]

/-- What the loop of `dhcp_udp_listener` calls: the first message type that it knows. -/
def dhcpMessage (packet : DhcpPacket) : Option DhcpMessage :=
  if packet.op = dhcpBootOpReply then
    (optionPlaces packet.options 157 0).findSome? fun op =>
      if packet.options op = dhcpOptionMessageType then
        if packet.options (op + 2) = dhcpOpOffer then some .offer
        else if packet.options (op + 2) = dhcpOpAck then some .ack
        else none
      else none
  else none

def dhcpUdpListener (s : Dhcp) (packet : DhcpPacket) : Dhcp :=
  match dhcpMessage packet with
  | some .offer => { s with offers := dhcpProcessOffer s.offers packet }
  | some .ack => { s with ipv4 := dhcpProcessAck s.ipv4 packet }
  | none => s

/-- A packet for port 68 arrives; there is a listener from `dhcp_init` on. -/
def dhcpReceive (s : Dhcp) (packet : DhcpPacket) : Dhcp :=
  let s' := if s.phase = .idle then s else dhcpUdpListener s packet
  { s' with history := s.history ++ [.received packet s.ipv4 s'.ipv4] }

/-- The head of the loop over the offers. -/
def checkFrom (s : Dhcp) (i : ℕ) : DhcpPhase :=
  if i < s.offers.length then .checking i else .done

/-- The body of the wait: an offer has come, or the time is over, or it goes on. -/
def dhcpWait (s : Dhcp) (t : ℕ) : Dhcp :=
  { s with phase :=
      if 0 < s.offers.length ∨ 10000 ≤ t + 10 then checkFrom s 0 else .waiting (t + 10) }

/-- The bytes of `options` that are set, and behind them what `malloc` left there. -/
def optionBytes (bytes : List UInt8) (rest : ℕ → UInt8) (i : ℕ) : UInt8 := bytes.getD i (rest i)

def dhcpSendDiscover (rest : ℕ → UInt8) : DhcpPacket where
  op := dhcpBootOpRequest
  xid := dhcpXid
  yiaddr := #v[0, 0, 0, 0]
  siaddr := #v[0, 0, 0, 0]
  giaddr := #v[0, 0, 0, 0]
  options := optionBytes [dhcpOptionMessageType, 1, dhcpOpDiscover, dhcpOptionEnd] rest

def dhcpSendRequest (serverIp requestedIp : Ip) (rest : ℕ → UInt8) : DhcpPacket where
  op := dhcpBootOpRequest
  xid := dhcpXid
  yiaddr := #v[0, 0, 0, 0]
  siaddr := serverIp
  giaddr := #v[0, 0, 0, 0]
  options := optionBytes
    [dhcpOptionMessageType, 1, dhcpOpRequest,
      dhcpOptionRequestedIp, 4, requestedIp[0], requestedIp[1], requestedIp[2], requestedIp[3],
      dhcpOptionServerIdentifier, 4, serverIp[0], serverIp[1], serverIp[2], serverIp[3],
      dhcpOptionParameterRequestList, 4, dhcpOptionSubnetMask, dhcpOptionRouter,
      dhcpOptionDomainName, dhcpOptionDnsServer, dhcpOptionEnd] rest

/-- The body of the loop over the offers, after `arp_get_mac`. -/
def dhcpCheck (s : Dhcp) (i : ℕ) (offer : DhcpOffer) (answered : Bool) (rest : ℕ → UInt8) : Dhcp :=
  if answered then { s with phase := checkFrom s (i + 1) }
  else { s with
    phase := .done
    history := s.history ++ [.request offer.serverIp offer.offeredIp
      (dhcpSendRequest offer.serverIp offer.offeredIp rest)] }

/-- `dhcp_init` begins, a packet arrives, ten milliseconds pass, or `arp_get_mac` is over; `rest` is
what `malloc` leaves in a packet that is sent. -/
inductive DhcpOp
  | init (rest : ℕ → UInt8)
  | receive (packet : DhcpPacket)
  | tick
  | arp (answered : Bool) (rest : ℕ → UInt8)

def Dhcp.step (s : Dhcp) : DhcpOp → Option Dhcp
  | .init rest =>
    if s.phase = .idle then
      some { s with
        phase := .waiting 0
        history := s.history ++ [.discover (dhcpSendDiscover rest)] }
    else none
  | .receive packet => some (dhcpReceive s packet)
  | .tick =>
    match s.phase with
    | .waiting t => some (dhcpWait s t)
    | _ => none
  | .arp answered rest =>
    match s.phase with
    | .checking i => (s.offers[i]?).map fun offer => dhcpCheck s i offer answered rest
    | _ => none

def DhcpEvent.sent : DhcpEvent → Option DhcpPacket
  | .discover packet => some packet
  | .request _ _ packet => some packet
  | .received _ _ _ => none

/-- Where a server finds an option of a packet. -/
def optionOf (packet : DhcpPacket) (code : UInt8) : Option ℕ :=
  (optionPlaces packet.options 157 0).find? fun op => packet.options op = code

/-- A DHCP server acknowledges packets whose message type is request. It takes the transaction id
from the packet, and gives the address that the packet asks for in its options. -/
structure Answers (reply packet : DhcpPacket) : Prop where
  type : ∃ op, optionOf packet dhcpOptionMessageType = some op ∧
    packet.options (op + 2) = dhcpOpRequest
  xid : reply.xid = packet.xid
  yiaddr : ∃ op, optionOf packet dhcpOptionRequestedIp = some op ∧
    reply.yiaddr = optionIp packet.options op

/-- The ACKs that reach the listener are answers to packets of this client. -/
def OwnAcks (s : Dhcp) : DhcpOp → Prop
  | .receive reply => s.phase ≠ .idle → dhcpMessage reply = some .ack →
      ∃ e ∈ s.history, ∃ packet, e.sent = some packet ∧ Answers reply packet
  | _ => True

/-- `dhcp_send_discover` or `dhcp_send_request` has run. -/
inductive Sends : DhcpEvent → Prop
  | discover (rest : ℕ → UInt8) : Sends (.discover (dhcpSendDiscover rest))
  | request (serverIp requestedIp : Ip) (rest : ℕ → UInt8) :
      Sends (.request serverIp requestedIp (dhcpSendRequest serverIp requestedIp rest))

theorem optionOf_discover (rest : ℕ → UInt8) :
    optionOf (dhcpSendDiscover rest) dhcpOptionMessageType = some 0 := by
  rw [optionOf, optionPlaces]
  rfl

theorem optionOf_request_ip (serverIp requestedIp : Ip) (rest : ℕ → UInt8) :
    optionOf (dhcpSendRequest serverIp requestedIp rest) dhcpOptionRequestedIp = some 3 := by
  rw [optionOf, optionPlaces, optionPlaces]
  rfl

theorem optionIp_request (serverIp requestedIp : Ip) (rest : ℕ → UInt8) :
    optionIp (dhcpSendRequest serverIp requestedIp rest).options 3 = requestedIp := by
  ext i hi
  obtain rfl | rfl | rfl | rfl : i = 0 ∨ i = 1 ∨ i = 2 ∨ i = 3 := by omega
  all_goals rfl

/-! ### The lease -/

/-- The packet acknowledges a request: it comes after `dhcp_send_request`, has the transaction id
that was sent, and is for the requested address. -/
def Acknowledges (reply : DhcpPacket) (before : List DhcpEvent) : Prop :=
  ∃ server packet, .request server reply.yiaddr packet ∈ before ∧ reply.xid = packet.xid

/-- A packet changes the configuration only if it is an ACK for a request. -/
def LeaseKept (before : List DhcpEvent) (e : DhcpEvent) : Prop :=
  ∀ packet c c', e = .received packet c c' → c' ≠ c →
    dhcpMessage packet = some .ack ∧ Acknowledges packet before

section Lease
variable {s : Dhcp}

/-- Only an ACK changes the configuration, and only when there is a listener. -/
theorem dhcpReceive_ipv4 {packet : DhcpPacket} (h : (dhcpReceive s packet).ipv4 ≠ s.ipv4) :
    s.phase ≠ .idle ∧ dhcpMessage packet = some .ack := by
  rw [dhcpReceive] at h
  dsimp only at h
  split_ifs at h with hidle
  · exact absurd rfl h
  · refine ⟨hidle, ?_⟩
    rw [dhcpUdpListener] at h
    split at h
    · exact absurd rfl h
    · assumption
    · exact absurd rfl h

theorem Dhcp.step_history {o : DhcpOp} {s' : Dhcp} (hs : s.step o = some s') :
    s'.history = s.history ∨
    (∃ packet, o = .receive packet ∧
      s'.history = s.history ++ [.received packet s.ipv4 (dhcpReceive s packet).ipv4]) ∨
    ∃ e, Sends e ∧ s'.history = s.history ++ [e] := by
  cases o with
  | init rest =>
    rw [Dhcp.step] at hs
    split_ifs at hs
    obtain rfl := Option.some.inj hs
    exact .inr (.inr ⟨_, .discover rest, rfl⟩)
  | receive packet =>
    obtain rfl := Option.some.inj hs
    exact .inr (.inl ⟨packet, rfl, rfl⟩)
  | tick =>
    rw [Dhcp.step] at hs
    split at hs
    · obtain rfl := Option.some.inj hs
      exact .inl rfl
    · cases hs
  | arp answered rest =>
    rw [Dhcp.step] at hs
    split at hs
    · obtain ⟨offer, -, rfl⟩ := Option.map_eq_some_iff.mp hs
      cases answered with
      | true => exact .inl rfl
      | false => exact .inr (.inr ⟨_, .request offer.serverIp offer.offeredIp rest, rfl⟩)
    · cases hs

/-- An answer to a packet that was sent acknowledges a request: no server answers a discover with an
ACK, and the requested address stands where `dhcp_send_request` has put it. -/
theorem Answers.acknowledges {reply packet : DhcpPacket} {before : List DhcpEvent} {e : DhcpEvent}
    (h : Answers reply packet) (he : e ∈ before) (hsends : Sends e)
    (hsent : e.sent = some packet) : Acknowledges reply before := by
  obtain ⟨⟨op, htype, hrequest⟩, hxid, ip, hip, hyiaddr⟩ := h
  cases hsends with
  | discover rest =>
    obtain rfl := Option.some.inj hsent
    rw [optionOf_discover] at htype
    obtain rfl := Option.some.inj htype
    exact absurd (show dhcpOpDiscover = dhcpOpRequest from hrequest) (by decide)
  | request serverIp requestedIp rest =>
    obtain rfl := Option.some.inj hsent
    rw [optionOf_request_ip] at hip
    obtain rfl := Option.some.inj hip
    rw [optionIp_request] at hyiaddr
    exact ⟨serverIp, _, hyiaddr ▸ he, hxid⟩

/-- What was sent came from the client, and the lease is kept. -/
structure LeaseInv (s : Dhcp) : Prop where
  sends : ∀ e ∈ s.history, e.sent.isSome → Sends e
  kept : EachEvent LeaseKept s.history

theorem LeaseInv.step {o : DhcpOp} {s' : Dhcp} (h : LeaseInv s) (hown : OwnAcks s o)
    (hs : s.step o = some s') : LeaseInv s' := by
  rcases Dhcp.step_history hs with heq | ⟨packet, rfl, heq⟩ | ⟨e, he, heq⟩
  · exact ⟨heq ▸ h.sends, heq ▸ h.kept⟩
  · refine ⟨?_, ?_⟩
    · rw [heq]
      rintro e he hsent
      rcases List.mem_append.mp he with he | he
      · exact h.sends e he hsent
      · obtain rfl := List.mem_singleton.mp he
        cases hsent
    · rw [heq, eachEvent_concat]
      refine ⟨h.kept, fun packet' c c' he hne => ?_⟩
      obtain ⟨rfl, rfl, rfl⟩ := DhcpEvent.received.inj he
      obtain ⟨hidle, hack⟩ := dhcpReceive_ipv4 hne
      obtain ⟨e, hmem, request, hsent, hanswers⟩ := hown hidle hack
      exact ⟨hack, hanswers.acknowledges hmem (h.sends e hmem (by simp [hsent])) hsent⟩
  · refine ⟨?_, ?_⟩
    · rw [heq]
      rintro e' he' hsent
      rcases List.mem_append.mp he' with he' | he'
      · exact h.sends e' he' hsent
      · exact List.mem_singleton.mp he' ▸ he
    · rw [heq, eachEvent_concat]
      refine ⟨h.kept, fun packet c c' heq' _ => ?_⟩
      subst heq'
      cases he

end Lease

end DosKernel.Net
