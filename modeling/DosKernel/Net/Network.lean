import DosKernel.Lib.Simulation
import DosKernel.Net.ArpAnswers
import DosKernel.Net.Checksums

/-! A network of hosts that run this code. What a host sends stays on the wire and may reach any
host, any number of times, in any order, or never: the cards are promiscuous. A frame is received
into memory that holds anything behind it. The wire carries bytes; that the receive functions
read from them what the send functions wrote makes it a network of messages. -/

namespace DosKernel.Net

open Lib Reading

variable {ι : Type*} [DecidableEq ι]

/-! ### Frames -/

/-- The frame that `ethernet_send_packet` gives to the card. -/
def ethernetFrame (sourceMac destinationMac : Mac) (ethertype : ℕ) (data : List UInt8) :
    List UInt8 :=
  destinationMac.toList ++ sourceMac.toList ++ htons ethertype ++ data

/-- `ARP_HW_ETHERNET` and `ARP_PROTO_IPV4`. -/
def arpHwEthernet : ℕ := 0x0001

def arpProtoIpv4 : ℕ := 0x0800

/-- `arp_packet` as `arp_send_request` and `arp_send_reply` fill it. -/
def arpPacketBytes (opcode : ℕ) (senderMac : Mac) (senderIp : Ip) (targetMac : Mac) (targetIp : Ip) :
    List UInt8 :=
  htons arpHwEthernet ++ htons arpProtoIpv4 ++ [6, 4] ++ htons opcode ++ senderMac.toList ++
    senderIp.toList ++ targetMac.toList ++ targetIp.toList

/-- `arp_send_request` of a host with this address. -/
def arpSendRequest (mac : Mac) (driver : Driver) (ip : Ip) : List UInt8 :=
  ethernetFrame mac (Vector.replicate 6 0xFF) ethertypeArp
    (arpPacketBytes arpOpRequest mac driver.ip (Vector.replicate 6 0) ip)

def arpSendReply (mac : Mac) (driver : Driver) (ip : Ip) (targetMac : Mac) : List UInt8 :=
  ethernetFrame mac targetMac ethertypeArp (arpPacketBytes arpOpReply mac driver.ip targetMac ip)

def macAt (m : ℕ → UInt8) (a : ℕ) : Mac := Vector.ofFn fun i => m (a + i)

/-- The fields that `arp_receive_packet` reads. -/
def arpPacketAt (m : ℕ → UInt8) (a : ℕ) : ArpPacket where
  opcode := ntohs m (a + 6)
  senderMac := macAt m (a + 8)
  senderIp := ipAt m (a + 14)
  targetIp := ipAt m (a + 24)

/-! ### Hosts -/

/-- `udp_listeners`: the function for each port, once `udp_init` was called. -/
abbrev UdpListeners := Option (ℕ → Option ℕ)

/-- A host: its addresses, its ARP cache, its listeners, and the calls of the UDP listeners so
far, each with its port and payload. -/
structure Host where
  mac : Mac
  driver : Driver
  arp : ArpCache
  udpListeners : UdpListeners
  tcpListeners : Option (ℕ → Option Bool)
  received : List (ℕ × ℕ × List UInt8)

def udpInit : UdpListeners := some fun _ => none

/-- `udp_install_listener` of a port that has none; otherwise it returns `false`. -/
def udpInstallListener (listeners : ℕ → Option ℕ) (port : ℕ) (listener : ℕ) :
    Bool × (ℕ → Option ℕ) :=
  if (listeners port).isSome then (false, listeners)
  else (true, Function.update listeners port (some listener))

def udpUninstallListener (listeners : ℕ → Option ℕ) (port : ℕ) : ℕ → Option ℕ :=
  Function.update listeners port none

def Host.sockets (h : Host) : Sockets :=
  ⟨h.udpListeners.map fun listeners port => (listeners port).isSome, h.tcpListeners⟩

def Host.listen (h : Host) (port : ℕ) (payload : List UInt8) : Host :=
  match h.udpListeners.bind fun listeners => listeners port with
  | some listener => { h with received := h.received ++ [(port, listener, payload)] }
  | none => h

/-- `ethernet_process_packet` on the frame at address 0, and the frame that is sent in answer.
What becomes of a TCP segment is left out. -/
def hostReceive (h : Host) (m : ℕ → UInt8) : Host × Option (List UInt8) :=
  match (ethernetProcessPacket h.sockets m).value with
  | .arp =>
    let r := arpReceivePacket h.driver h.arp (arpPacketAt m 14)
    ({ h with arp := r.1 }, r.2.map fun target => arpSendReply h.mac h.driver target.1 target.2)
  | .udp port => (h.listen port (bytesAt m 42 (sizeSub (ntohs m 38) 8)), none)
  | _ => (h, none)

/-- `udp_send_packet` when the waits for MAC addresses are over. -/
def hostSend (h : Host) (sourceIp : Ip) (sourcePort : UInt16) (destinationIp : Ip)
    (destinationPort : UInt16) (data : List UInt8) : Option (List UInt8) :=
  (udpSendPacket h.driver (mapping h.arp.entries) sourceIp sourcePort destinationIp destinationPort
    data).map fun packet => ethernetFrame h.mac packet.1 ethertypeIpv4 packet.2

/-! ### The network -/

/-- What happens: `dhcp` configures a host, `arp_get_mac` finds nothing and asks, a datagram is
sent, a frame from the wire arrives in front of other bytes, and listeners come and go. -/
inductive NetEvent (ι : Type*)
  | configure (i : ι) (driver : Driver)
  | request (i : ι) (ip : Ip)
  | send (i : ι) (sourceIp : Ip) (sourcePort : UInt16) (destinationIp : Ip)
      (destinationPort : UInt16) (data : List UInt8)
  | deliver (i : ι) (n : ℕ) (behind : ℕ → UInt8)
  | udpInit (i : ι)
  | install (i : ι) (port : UInt16) (listener : ℕ)
  | uninstall (i : ι) (port : UInt16)

/-- The hosts, and all that was sent, as `W`. -/
structure Network (ι W : Type*) where
  host : ι → Host
  wire : List W

namespace Network

/-- Another state of a host, and what it sends. -/
def put {W : Type*} (s : Network ι W) (i : ι) (h : Host) (sent : Option W) : Network ι W :=
  { host := Function.update s.host i h, wire := s.wire ++ sent.toList }

end Network

/-- A host calls a function that changes its listeners. -/
def Host.setListeners (h : Host) (listeners : UdpListeners) : Host :=
  { h with udpListeners := listeners }

/-- How the hosts of a network ask for an address, send a datagram and receive what is on the
wire, in front of other bytes. -/
structure Stack (W : Type*) where
  ask : Host → Ip → W
  send : Host → Ip → UInt16 → Ip → UInt16 → List UInt8 → Option W
  receive : Host → W → (ℕ → UInt8) → Host × Option W

def netStep {W : Type*} (k : Stack W) (s : Network ι W) : NetEvent ι → Option (Network ι W)
  | .configure i driver => some (s.put i { s.host i with driver := driver } none)
  | .request i ip => some (s.put i (s.host i) (some (k.ask (s.host i) ip)))
  | .send i sourceIp sourcePort destinationIp destinationPort data =>
    some (s.put i (s.host i)
      (k.send (s.host i) sourceIp sourcePort destinationIp destinationPort data))
  | .deliver i n behind => (s.wire[n]?).map fun w =>
      s.put i (k.receive (s.host i) w behind).1 (k.receive (s.host i) w behind).2
  | .udpInit i => some (s.put i ((s.host i).setListeners udpInit) none)
  | .install i port listener => (s.host i).udpListeners.map fun listeners => s.put i
      ((s.host i).setListeners (some (udpInstallListener listeners port.toNat listener).2)) none
  | .uninstall i port => (s.host i).udpListeners.map fun listeners =>
      s.put i ((s.host i).setListeners (some (udpUninstallListener listeners port.toNat))) none

/-- The receive buffer after a frame arrived. -/
def frameMemory (frame : List UInt8) (behind : ℕ → UInt8) (k : ℕ) : UInt8 := frame.getD k (behind k)

/-- The network of bytes: the code. -/
def byteStack : Stack (List UInt8) where
  ask h ip := arpSendRequest h.mac h.driver ip
  send := hostSend
  receive h frame behind := hostReceive h (frameMemory frame behind)

/-- Datagrams fit the receive buffer of 8192 bytes, and the ARP list of a host that receives a
frame is not full. -/
def NetAllowed {W : Type*} (s : Network ι W) : NetEvent ι → Prop
  | .send _ _ _ _ _ data => 42 + data.length ≤ 8192
  | .deliver i _ _ => (s.host i).arp.currArp < arpListLength
  | _ => True

instance {W : Type*} (s : Network ι W) (e : NetEvent ι) : Decidable (NetAllowed s e) :=
  match e with
  | .send _ _ _ _ _ data => inferInstanceAs (Decidable (42 + data.length ≤ 8192))
  | .deliver i _ _ => inferInstanceAs (Decidable ((s.host i).arp.currArp < arpListLength))
  | .configure _ _ | .request _ _ | .udpInit _ | .install _ _ _ | .uninstall _ _ => .isTrue trivial

/-! ### Messages -/

inductive Message
  | request (senderMac : Mac) (senderIp targetIp : Ip)
  | reply (senderMac : Mac) (senderIp : Ip) (targetMac : Mac) (targetIp : Ip)
  | datagram (sourceMac destinationMac : Mac) (sourceIp : Ip) (sourcePort : UInt16)
      (destinationIp : Ip) (destinationPort : UInt16) (data : List UInt8)

namespace Message

def bytes : Message → List UInt8
  | request senderMac senderIp targetIp =>
    ethernetFrame senderMac (Vector.replicate 6 0xFF) ethertypeArp
      (arpPacketBytes arpOpRequest senderMac senderIp (Vector.replicate 6 0) targetIp)
  | reply senderMac senderIp targetMac targetIp =>
    ethernetFrame senderMac targetMac ethertypeArp
      (arpPacketBytes arpOpReply senderMac senderIp targetMac targetIp)
  | datagram sourceMac destinationMac sourceIp sourcePort destinationIp destinationPort data =>
    ethernetFrame sourceMac destinationMac ethertypeIpv4 (ipv4Packet sourceIp destinationIp
      ipProtocolUdp (udpPacket sourceIp sourcePort destinationIp destinationPort data) data)

/-- What a host makes of a message. -/
def receive (h : Host) : Message → Host × Option Message
  | request senderMac senderIp targetIp =>
    (h, if h.driver.ip = targetIp then some (reply h.mac h.driver.ip senderMac senderIp) else none)
  | reply senderMac senderIp _ targetIp =>
    ({ h with arp := arpProcessReply h.arp ⟨arpOpReply, senderMac, senderIp, targetIp⟩ }, none)
  | datagram _ _ _ _ _ destinationPort data => (h.listen destinationPort.toNat data, none)

/-- The whole frame fits the receive buffer. -/
def Fits : Message → Prop
  | datagram _ _ _ _ _ _ data => 42 + data.length ≤ 8192
  | _ => True

end Message

/-- The datagram of `udp_send_packet`. -/
def messageSend (h : Host) (sourceIp : Ip) (sourcePort : UInt16) (destinationIp : Ip)
    (destinationPort : UInt16) (data : List UInt8) : Option Message :=
  (udpSendPacket h.driver (mapping h.arp.entries) sourceIp sourcePort destinationIp destinationPort
    data).map fun packet =>
      .datagram h.mac packet.1 sourceIp sourcePort destinationIp destinationPort data

/-- The network of messages. -/
def messageStack : Stack Message where
  ask h ip := .request h.mac h.driver.ip ip
  send := messageSend
  receive h message _ := message.receive h

/-! ### Frames in memory -/

theorem holds_frameMemory (frame : List UInt8) (behind : ℕ → UInt8) :
    Holds (frameMemory frame behind) 0 frame := by
  intro i b hi
  simp [frameMemory, hi]

section Decode

variable {m : ℕ → UInt8} {sourceMac destinationMac senderMac targetMac mac : Mac}
  {senderIp targetIp sourceIp destinationIp : Ip} {ethertype opcode : ℕ} {data : List UInt8} {a : ℕ}
  {h : Host}

theorem macAt_eq (hm : Holds m a mac.toList) : macAt m a = mac := by
  apply Vector.ext
  intro i hi
  simp only [macAt, Vector.getElem_ofFn]
  exact hm i mac[i] (by simp [hi])

theorem holds_ethernetFrame (hm : Holds m 0 (ethernetFrame sourceMac destinationMac ethertype data))
    (ht : ethertype < 65536) : ntohs m 12 = ethertype ∧ Holds m 14 data := by
  simp only [ethernetFrame, holds_append] at hm
  have hmacs : destinationMac.toList.length = 6 ∧ sourceMac.toList.length = 6 := by simp
  simp only [List.length_append, hmacs, htons_length] at hm
  exact ⟨ntohs_eq ht hm.1.2, hm.2⟩

theorem arpPacketAt_eq (hopcode : opcode < 65536)
    (hm : Holds m a (arpPacketBytes opcode senderMac senderIp targetMac targetIp)) :
    arpPacketAt m a = ⟨opcode, senderMac, senderIp, targetIp⟩ := by
  simp only [arpPacketBytes, holds_append] at hm
  have hlengths : senderMac.toList.length = 6 ∧ targetMac.toList.length = 6 ∧
      senderIp.toList.length = 4 := by simp
  simp only [List.length_append, hlengths, htons_length, List.length_cons, List.length_nil] at hm
  obtain ⟨⟨⟨⟨⟨-, hop⟩, hmac⟩, hip⟩, -⟩, htarget⟩ := hm
  simp only [arpPacketAt, ntohs_eq hopcode hop, macAt_eq hmac, ipAt_eq hip, ipAt_eq htarget]

theorem hostReceive_arp (hm : Holds m 0 (ethernetFrame sourceMac destinationMac ethertypeArp
      (arpPacketBytes opcode senderMac senderIp targetMac targetIp))) (hopcode : opcode < 65536) :
    hostReceive h m =
      ({ h with arp := (arpReceivePacket h.driver h.arp
          ⟨opcode, senderMac, senderIp, targetIp⟩).1 },
        (arpReceivePacket h.driver h.arp ⟨opcode, senderMac, senderIp, targetIp⟩).2.map
          fun target => arpSendReply h.mac h.driver target.1 target.2) := by
  obtain ⟨htype, hdata⟩ := holds_ethernetFrame hm (by decide)
  have hverdict : (ethernetProcessPacket h.sockets m).value = .arp := by
    simp [ethernetProcessPacket, htype]
  simp only [hostReceive, hverdict, arpPacketAt_eq hopcode hdata]

theorem udpReceivePacket_port {k : Sockets} {ip packet data : ℕ}
    (hk : (udpReceivePacket k m ip packet data).value ≠ .badChecksum) :
    (udpReceivePacket k m ip packet data).value =
      if k.udpListeners.isSome then .udp (ntohs m (packet + 2)) else .ignored := by
  rcases k with ⟨_ | listeners, tcp⟩
  · rfl
  · simp only [udpReceivePacket, value_bind, Option.isSome_some, if_true] at hk ⊢
    split_ifs at hk ⊢ with hright hport
    · exact absurd rfl hk
    · rfl
    · rfl

/-- A datagram that was sent is taken for its port and payload. -/
theorem hostReceive_datagram {sourcePort destinationPort : UInt16} (hlen : 42 + data.length ≤ 8192)
    (hm : Holds m 0 (ethernetFrame sourceMac destinationMac ethertypeIpv4 (ipv4Packet sourceIp
      destinationIp ipProtocolUdp (udpPacket sourceIp sourcePort destinationIp destinationPort data)
      data))) :
    hostReceive h m = (h.listen destinationPort.toNat data, none) := by
  obtain ⟨htype, hpacket⟩ := holds_ethernetFrame hm (by decide)
  have hbytes := hpacket.ipv4Packet.2
  have hheader : Holds m 34 (udpPacket sourceIp sourcePort destinationIp destinationPort data) :=
    hbytes.1
  have hpayload : bytesAt m 42 data.length = data := bytesAt_eq hbytes.2
  rw [udpPacket, udpHeader] at hheader
  simp only [holds_append, List.length_append, htons_length] at hheader
  have hport : ntohs m 36 = destinationPort.toNat :=
    ntohs_eq destinationPort.toNat_lt hheader.1.1.2
  have hsize : ntohs m 38 = data.length + 8 := ntohs_eq (by omega) hheader.1.2
  have haccepted := udpReceivePacket_sent h.sockets (by omega) hpacket
  have hverdict : (ethernetProcessPacket h.sockets m).value =
      if h.sockets.udpListeners.isSome then .udp destinationPort.toNat else .ignored := by
    have hport' := udpReceivePacket_port haccepted
    rw [hport] at hport'
    rw [← hport']
    have hsent := ipv4ReceivePacket_sent h.sockets hpacket
    rw [if_pos rfl] at hsent
    have hother : ¬ ethertypeIpv4 = ethertypeArp := by decide
    simp only [ethernetProcessPacket, value_bind, htype, hother, if_false, if_true]
    exact hsent
  unfold hostReceive
  rw [hverdict]
  rcases hl : h.udpListeners with _ | listeners
  · simp [Host.sockets, Host.listen, hl]
  · simp only [Host.sockets, hl, Option.map_some, Option.isSome_some, if_true]
    rw [hsize, sizeSub_add _ _ (by omega), hpayload]

end Decode

/-- The code reads from the frame of a message what the message says, and answers with the frame
of the answer. -/
theorem hostReceive_message (h : Host) {message : Message} (hfits : message.Fits)
    (behind : ℕ → UInt8) :
    hostReceive h (frameMemory message.bytes behind) =
      ((message.receive h).1, (message.receive h).2.map Message.bytes) := by
  have hm := holds_frameMemory message.bytes behind
  cases message with
  | request senderMac senderIp targetIp =>
    rw [hostReceive_arp hm (by decide)]
    simp only [arpReceivePacket, arpProcessRequest, Message.receive, if_true]
    by_cases hip : h.driver.ip = targetIp
    · simp [hip, arpSendReply, Message.bytes]
    · simp [hip]
  | reply senderMac senderIp targetMac targetIp =>
    rw [hostReceive_arp hm (by decide)]
    simp [arpReceivePacket, arpOpReply, arpOpRequest, Message.receive]
  | datagram sourceMac destinationMac sourceIp sourcePort destinationIp destinationPort data =>
    rw [hostReceive_datagram hfits hm]
    rfl

/-! ### The code's network is one of messages -/

/-- The same hosts, and the frames of the messages. -/
structure Carries (s : Network ι (List UInt8)) (t : Network ι Message) : Prop where
  host_eq : s.host = t.host
  wire_eq : s.wire = t.wire.map Message.bytes
  fits : ∀ message ∈ t.wire, message.Fits

namespace Carries

variable {s : Network ι (List UInt8)} {t : Network ι Message}

theorem put (h : Carries s t) (i : ι) (host : Host) {sent : Option Message}
    (hfits : ∀ message, sent = some message → message.Fits) :
    Carries (s.put i host (sent.map Message.bytes)) (t.put i host sent) where
  host_eq := by
    funext j
    simp only [Network.put, h.host_eq]
  wire_eq := by
    cases sent <;> simp [Network.put, h.wire_eq]
  fits := by
    intro message hmessage
    rcases List.mem_append.mp hmessage with hold | hnew
    · exact h.fits message hold
    · exact hfits message (Option.mem_toList.mp hnew)

theorem quiet (h : Carries s t) (i : ι) (host : Host) :
    Carries (s.put i host none) (t.put i host none) := by
  have hnone : ∀ message : Message, none = some message → message.Fits := by simp
  exact h.put i host hnone

theorem sends (h : Carries s t) (i : ι) (host : Host) {message : Message} (hfits : message.Fits) :
    Carries (s.put i host (some message.bytes)) (t.put i host (some message)) := by
  have hsome : ∀ m, some message = some m → m.Fits := by simp [hfits]
  exact h.put i host hsome

end Carries

theorem answer_fits (h : Host) (message : Message) :
    ∀ answer, (message.receive h).2 = some answer → answer.Fits := by
  intro answer hanswer
  cases message with
  | request senderMac senderIp targetIp =>
    simp only [Message.receive] at hanswer
    split_ifs at hanswer
    obtain rfl := Option.some.inj hanswer
    trivial
  | reply => cases hanswer
  | datagram => cases hanswer

theorem hostSend_eq (h : Host) (sourceIp : Ip) (sourcePort : UInt16) (destinationIp : Ip)
    (destinationPort : UInt16) (data : List UInt8) :
    hostSend h sourceIp sourcePort destinationIp destinationPort data =
      (messageSend h sourceIp sourcePort destinationIp destinationPort data).map Message.bytes := by
  unfold hostSend messageSend
  rw [Option.map_map]
  rcases hsend : udpSendPacket h.driver (mapping h.arp.entries) sourceIp sourcePort destinationIp
    destinationPort data with _ | ⟨mac, packet⟩
  · rfl
  · obtain rfl := ipv4SendPacket_packet hsend
    rfl

/-- Every step of the network of bytes is one of the network of messages. -/
theorem netStep_carries {s s' : Network ι (List UInt8)} {t : Network ι Message} {e : NetEvent ι}
    (h : Carries s t) (hc : NetAllowed s e) (hs : netStep byteStack s e = some s') :
    ∃ t', netStep messageStack t e = some t' ∧ Carries s' t' := by
  have hhost : ∀ i, s.host i = t.host i := fun i => congrFun h.host_eq i
  cases e with
  | configure i driver =>
    obtain rfl := Option.some.inj hs
    refine ⟨_, rfl, ?_⟩
    rw [hhost]
    exact h.quiet i _
  | request i ip =>
    obtain rfl := Option.some.inj hs
    refine ⟨_, rfl, ?_⟩
    rw [hhost]
    exact h.sends i (t.host i) (show (messageStack.ask (t.host i) ip).Fits from trivial)
  | send i sourceIp sourcePort destinationIp destinationPort data =>
    obtain rfl := Option.some.inj hs
    refine ⟨_, rfl, ?_⟩
    rw [hhost]
    simp only [byteStack, hostSend_eq]
    apply h.put
    intro message hmessage
    obtain ⟨packet, -, rfl⟩ := Option.map_eq_some_iff.mp hmessage
    exact hc
  | deliver i n behind =>
    simp only [netStep, h.wire_eq, List.getElem?_map, Option.map_eq_some_iff] at hs
    obtain ⟨frame, ⟨message, hmessage, rfl⟩, rfl⟩ := hs
    have hfits := h.fits message (List.mem_of_getElem? hmessage)
    refine ⟨_, by simp only [netStep, hmessage, Option.map_some]; rfl, ?_⟩
    simp only [byteStack, hhost, hostReceive_message (t.host i) hfits behind]
    exact h.put i _ (answer_fits (t.host i) message)
  | udpInit i =>
    obtain rfl := Option.some.inj hs
    refine ⟨_, rfl, ?_⟩
    rw [hhost]
    exact h.quiet i _
  | install i port listener =>
    simp only [netStep, hhost, Option.map_eq_some_iff] at hs
    obtain ⟨listeners, hl, rfl⟩ := hs
    refine ⟨_, by simp only [netStep, hl, Option.map_some]; rfl, ?_⟩
    exact h.quiet i _
  | uninstall i port =>
    simp only [netStep, hhost, Option.map_eq_some_iff] at hs
    obtain ⟨listeners, hl, rfl⟩ := hs
    refine ⟨_, by simp only [netStep, hl, Option.map_some]; rfl, ?_⟩
    exact h.quiet i _

/-- The network of messages does every run of the network of bytes. -/
theorem run_carries {s s' : Network ι (List UInt8)} {t : Network ι Message} {es : List (NetEvent ι)}
    (hrun : Lib.Run (netStep byteStack) NetAllowed s es s') (h : Carries s t) :
    ∃ t', Lib.Run (netStep messageStack) NetAllowed t es t' ∧ Carries s' t' := by
  refine hrun.lockstep (fun s a e s' h hc hs => ?_) h
  obtain ⟨b, hb, h'⟩ := netStep_carries h hc hs
  refine ⟨b, ?_, hb, h'⟩
  cases e with
  | send => exact hc
  | deliver i n behind =>
    rw [NetAllowed, ← h.host_eq]
    exact hc
  | _ => trivial

/-! ### Invariants of hosts and messages -/

/-- A property of the hosts and one of the messages that the events of a run keep: what a good
host sends is good, and a good message leaves a good host good. -/
structure Kept (es : List (NetEvent ι)) (P : ι → Host → Prop) (Q : Message → Prop) : Prop where
  configure : ∀ i h driver, P i h → .configure i driver ∈ es → P i { h with driver := driver }
  ask : ∀ i h ip, P i h → Q (.request h.mac h.driver.ip ip)
  send : ∀ i h mac sourceIp sourcePort destinationIp destinationPort data, P i h →
    .send i sourceIp sourcePort destinationIp destinationPort data ∈ es →
      Q (.datagram h.mac mac sourceIp sourcePort destinationIp destinationPort data)
  receive : ∀ i h message, h.arp.currArp < arpListLength → P i h → Q message →
    P i (message.receive h).1
  answer : ∀ i h message answer, P i h → Q message → (message.receive h).2 = some answer → Q answer
  udpInit : ∀ i h, P i h → P i (h.setListeners udpInit)
  install : ∀ i h listeners port listener, P i h → h.udpListeners = some listeners →
    .install i port listener ∈ es →
      P i (h.setListeners (some (udpInstallListener listeners port.toNat listener).2))
  uninstall : ∀ i h listeners port, P i h → h.udpListeners = some listeners →
    P i (h.setListeners (some (udpUninstallListener listeners port)))

namespace Kept

variable {es : List (NetEvent ι)} {P : ι → Host → Prop} {Q : Message → Prop}
  {s s' : Network ι Message}

/-- All hosts and all messages are good. -/
def Good (P : ι → Host → Prop) (Q : Message → Prop) (s : Network ι Message) : Prop :=
  (∀ i, P i (s.host i)) ∧ ∀ message ∈ s.wire, Q message

theorem Good.put (h : Good P Q s) {i : ι} {host : Host} {sent : Option Message} (hhost : P i host)
    (hsent : ∀ message, sent = some message → Q message) : Good P Q (s.put i host sent) := by
  refine ⟨fun j => ?_, fun message hmessage => ?_⟩
  · by_cases hj : j = i
    · subst hj
      simpa [Network.put] using hhost
    · simpa [Network.put, hj] using h.1 j
  · rcases List.mem_append.mp hmessage with hold | hnew
    · exact h.2 message hold
    · exact hsent message (Option.mem_toList.mp hnew)

theorem step (hk : Kept es P Q) (h : Good P Q s) {e : NetEvent ι} (he : e ∈ es)
    (hc : NetAllowed s e) (hs : netStep messageStack s e = some s') : Good P Q s' := by
  have quiet : ∀ {i : ι} {host : Host}, P i host → Good P Q (s.put i host none) :=
    fun hhost => h.put hhost (by simp)
  cases e with
  | configure i driver =>
    obtain rfl := Option.some.inj hs
    exact quiet (hk.configure i _ driver (h.1 i) he)
  | request i ip =>
    obtain rfl := Option.some.inj hs
    apply h.put (h.1 i)
    intro message hmessage
    obtain rfl := Option.some.inj hmessage
    exact hk.ask i _ ip (h.1 i)
  | send i sourceIp sourcePort destinationIp destinationPort data =>
    obtain rfl := Option.some.inj hs
    apply h.put (h.1 i)
    intro message hmessage
    obtain ⟨packet, -, rfl⟩ := Option.map_eq_some_iff.mp hmessage
    exact hk.send i _ packet.1 _ _ _ _ _ (h.1 i) he
  | deliver i n behind =>
    obtain ⟨message, hmessage, rfl⟩ := Option.map_eq_some_iff.mp hs
    have hgood := h.2 message (List.mem_of_getElem? hmessage)
    exact h.put (hk.receive i _ message hc (h.1 i) hgood)
      fun answer hanswer => hk.answer i _ message answer (h.1 i) hgood hanswer
  | udpInit i =>
    obtain rfl := Option.some.inj hs
    exact quiet (hk.udpInit i _ (h.1 i))
  | install i port listener =>
    obtain ⟨listeners, hl, rfl⟩ := Option.map_eq_some_iff.mp hs
    exact quiet (hk.install i _ listeners port listener (h.1 i) hl he)
  | uninstall i port =>
    obtain ⟨listeners, hl, rfl⟩ := Option.map_eq_some_iff.mp hs
    exact quiet (hk.uninstall i _ listeners port.toNat (h.1 i) hl)

/-- In a run of the code from an empty wire all hosts stay good. -/
theorem of_run (hk : Kept es P Q) {s s' : Network ι (List UInt8)} (hwire : s.wire = [])
    (hgood : ∀ i, P i (s.host i)) (hrun : Lib.Run (netStep byteStack) NetAllowed s es s') (i : ι) :
    P i (s'.host i) := by
  have hstart : Carries s ⟨s.host, []⟩ := ⟨rfl, by rw [hwire]; rfl, by simp⟩
  obtain ⟨t, ht, hcarries⟩ := run_carries hrun hstart
  have hall : Good P Q t := ht.invariant_mem (fun s e s' he h hc hs => hk.step h he hc hs)
    ⟨hgood, by simp⟩
  rw [hcarries.host_eq]
  exact hall.1 i

end Kept

end DosKernel.Net
