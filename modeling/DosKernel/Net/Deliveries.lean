import DosKernel.Net.Network

/-! What UDP does from one end to the other: a listener is only called with what was sent to its
port, and a datagram that arrives is given to the listener of its port as it was sent. -/

namespace DosKernel.Net

open Lib

variable {ι : Type*} {es : List (NetEvent ι)}

/-! ### Nothing is made up -/

/-- These data were sent to this port. -/
def SentTo (es : List (NetEvent ι)) (port : ℕ) (data : List UInt8) : Prop :=
  ∃ j sourceIp sourcePort destinationIp destinationPort,
    .send j sourceIp sourcePort destinationIp destinationPort data ∈ es ∧
      destinationPort.toNat = port

/-- This function was installed for this port. -/
def InstalledAt (es : List (NetEvent ι)) (i : ι) (port listener : ℕ) : Prop :=
  ∃ p : UInt16, .install i p listener ∈ es ∧ p.toNat = port

/-- The listeners were installed, and the calls they got have their cause. -/
structure Heard (es : List (NetEvent ι)) (i : ι) (h : Host) : Prop where
  listeners : ∀ f port listener, h.udpListeners = some f → f port = some listener →
    InstalledAt es i port listener
  received : ∀ port listener payload, (port, listener, payload) ∈ h.received →
    InstalledAt es i port listener ∧ SentTo es port payload

def Message.WasSent (es : List (NetEvent ι)) : Message → Prop
  | .datagram _ _ _ _ _ destinationPort data => SentTo es destinationPort.toNat data
  | _ => True

theorem Heard.setListeners {i : ι} {h : Host} (hh : Heard es i h) {listeners : UdpListeners}
    (hl : ∀ f port listener, listeners = some f → f port = some listener →
      InstalledAt es i port listener) : Heard es i (h.setListeners listeners) :=
  ⟨hl, hh.received⟩

theorem Heard.listen {i : ι} {h : Host} (hh : Heard es i h) {port : ℕ} {data : List UInt8}
    (hsent : SentTo es port data) : Heard es i (h.listen port data) := by
  unfold Host.listen
  split
  next listener hl =>
    obtain ⟨f, hf, hfl⟩ := Option.bind_eq_some_iff.mp hl
    refine ⟨hh.listeners, fun port' listener' payload hmem => ?_⟩
    rcases List.mem_append.mp hmem with hold | hnew
    · exact hh.received port' listener' payload hold
    · obtain ⟨rfl, rfl, rfl⟩ : port' = port ∧ listener' = listener ∧ payload = data := by
        simpa using hnew
      exact ⟨hh.listeners f port' listener' hf hfl, hsent⟩
  next => exact hh

theorem heard_kept (es : List (NetEvent ι)) : Kept es (Heard es) (Message.WasSent es) where
  configure _ _ _ hh _ := ⟨hh.listeners, hh.received⟩
  ask _ _ _ _ := trivial
  send i _ _ sourceIp sourcePort destinationIp destinationPort _ _ he :=
    ⟨i, sourceIp, sourcePort, destinationIp, destinationPort, he, rfl⟩
  receive i h message _ hh hsent := by
    cases message with
    | request => exact hh
    | reply => exact ⟨hh.listeners, hh.received⟩
    | datagram => exact hh.listen hsent
  answer i h message answer hh _ hanswer := by
    cases message with
    | request senderMac senderIp targetIp =>
      simp only [Message.receive] at hanswer
      split_ifs at hanswer
      obtain rfl := Option.some.inj hanswer
      trivial
    | reply => cases hanswer
    | datagram => cases hanswer
  udpInit i h hh := by
    apply hh.setListeners
    intro f port listener hf hl
    obtain rfl := Option.some.inj hf
    cases hl
  install i h f port listener hh hf he := by
    apply hh.setListeners
    intro f' port' listener' hf' hl
    obtain rfl := Option.some.inj hf'
    unfold udpInstallListener at hl
    split_ifs at hl with htaken <;> dsimp only at hl
    · exact hh.listeners f port' listener' hf hl
    · by_cases hport : port' = port.toNat
      · subst hport
        rw [Function.update_self] at hl
        obtain rfl := Option.some.inj hl
        exact ⟨port, he, rfl⟩
      · rw [Function.update_of_ne hport] at hl
        exact hh.listeners f port' listener' hf hl
  uninstall i h f port hh hf := by
    apply hh.setListeners
    intro f' port' listener hf' hl
    obtain rfl := Option.some.inj hf'
    unfold udpUninstallListener at hl
    by_cases hport : port' = port
    · subst hport
      rw [Function.update_self] at hl
      cases hl
    · rw [Function.update_of_ne hport] at hl
      exact hh.listeners f port' listener hf hl

variable [DecidableEq ι]

/-- In every run of a network of hosts that starts with an empty wire and no listeners, whatever
is lost, repeated or reordered: a function that is called with some bytes for a port was
installed for that port on its host, and exactly these bytes were sent to that port. -/
theorem deliveries_were_sent {s s' : Network ι (List UInt8)} (hwire : s.wire = [])
    (hstart : ∀ i, (s.host i).udpListeners = none ∧ (s.host i).received = [])
    (hrun : Run (netStep byteStack) NetAllowed s es s') {i : ι} {port listener : ℕ}
    {payload : List UInt8} (hr : (port, listener, payload) ∈ (s'.host i).received) :
    InstalledAt es i port listener ∧ SentTo es port payload := by
  have hheard : ∀ i, Heard es i (s.host i) := by
    intro i
    obtain ⟨hnone, hempty⟩ := hstart i
    exact ⟨by simp [hnone], by simp [hempty]⟩
  exact ((heard_kept es).of_run hwire hheard hrun i).received port listener payload hr

/-- Two hosts that are each other's neighbours, the second one also the gateway. -/
def pairNetwork : Network Bool (List UInt8) where
  host i :=
    { mac := Vector.replicate 6 (if i then 2 else 1)
      driver := ⟨Vector.replicate 4 (if i then 20 else 10), Vector.replicate 4 0,
        Vector.replicate 4 20⟩
      arp := arpInit listGoesOn
      udpListeners := none
      tcpListeners := none
      received := [] }
  wire := []

/-- The second host listens on port 7; the first one asks for its MAC address and gets it. -/
def pairEvents : List (NetEvent Bool) :=
  [.udpInit true, .install true 7 99, .request false (Vector.replicate 4 20),
    .deliver true 0 fun _ => 0, .deliver false 1 fun _ => 0xFF]

/-- Three bytes to port 7, with a copy. -/
def pairDatagram : List (NetEvent Bool) :=
  [.send false (Vector.replicate 4 10) 5 (Vector.replicate 4 20) 7 [1, 2, 3],
    .deliver true 2 fun _ => 0, .deliver true 2 fun _ => 0]

/-- The listener gets both. -/
theorem deliveries_were_sent_pair :
    ∃ s, Run (netStep byteStack) NetAllowed pairNetwork (pairEvents ++ pairDatagram) s ∧
      (s.host true).received = [(7, 99, [1, 2, 3]), (7, 99, [1, 2, 3])] ∧
      InstalledAt (pairEvents ++ pairDatagram) true 7 99 ∧
      SentTo (pairEvents ++ pairDatagram) 7 [1, 2, 3] := by
  have hreceived : ((pairEvents ++ pairDatagram).foldlM
      (fun s e => if NetAllowed s e then netStep byteStack s e else none) pairNetwork).map
        (fun s : Network Bool (List UInt8) => (s.host true).received) =
          some [(7, 99, [1, 2, 3]), (7, 99, [1, 2, 3])] := by decide +kernel
  obtain ⟨s, hs, hr⟩ := Option.map_eq_some_iff.mp hreceived
  have hrun := Run.of_checked hs
  refine ⟨s, hrun, hr, deliveries_were_sent rfl (fun i => ⟨rfl, rfl⟩) hrun ?_⟩
  rw [hr]
  exact List.mem_cons_self

/-! ### What arrives is complete -/

theorem wire_prefix {W : Type*} {k : Stack W} {C : Network ι W → NetEvent ι → Prop}
    {s s' : Network ι W} (hrun : Run (netStep k) C s es s') : s.wire <+: s'.wire := by
  refine hrun.invariant (I := fun t => s.wire <+: t.wire) (fun t e t' ht _ hs => ?_)
    (List.prefix_refl _)
  have hput : ∀ i host sent, s.wire <+: (t.put i host sent).wire := fun i host sent =>
    ht.trans (List.prefix_append _ _)
  cases e with
  | deliver i n behind =>
    obtain ⟨w, -, rfl⟩ := Option.map_eq_some_iff.mp hs
    exact hput _ _ _
  | install i port listener =>
    obtain ⟨f, -, rfl⟩ := Option.map_eq_some_iff.mp hs
    exact hput _ _ _
  | uninstall i port =>
    obtain ⟨f, -, rfl⟩ := Option.map_eq_some_iff.mp hs
    exact hput _ _ _
  | _ =>
    obtain rfl := Option.some.inj hs
    exact hput _ _ _

/-- A datagram is sent by a host that knows the MAC addresses it needs. Whatever happens then,
when its frame arrives at a host, this host calls the function that is installed for the port at
that moment, once, with the bytes that were sent, or none if there is none; and it sends nothing
and changes nothing else. -/
theorem datagram_delivered {s s₁ s₂ s₃ : Network ι (List UInt8)} {j i : ι}
    {sourceIp destinationIp : Ip} {sourcePort destinationPort : UInt16} {data : List UInt8}
    (hlen : 42 + data.length ≤ 8192)
    (hknown : (hostSend (s.host j) sourceIp sourcePort destinationIp destinationPort data).isSome)
    (hsend : netStep byteStack s
      (.send j sourceIp sourcePort destinationIp destinationPort data) = some s₁)
    (hrun : Run (netStep byteStack) NetAllowed s₁ es s₂) (behind : ℕ → UInt8)
    (harrive : netStep byteStack s₂ (.deliver i s.wire.length behind) = some s₃) :
    s₃.wire = s₂.wire ∧ (∀ k, k ≠ i → s₃.host k = s₂.host k) ∧
    s₃.host i = { s₂.host i with
      received := (s₂.host i).received ++
        (((s₂.host i).udpListeners.bind fun f => f destinationPort.toNat).map fun listener =>
          (destinationPort.toNat, listener, data)).toList } := by
  obtain ⟨frame, hframe⟩ := Option.isSome_iff_exists.mp hknown
  obtain rfl := Option.some.inj hsend
  have hprefix := wire_prefix hrun
  simp only [Network.put, byteStack, hframe, Option.toList_some] at hprefix
  have hat : s₂.wire[s.wire.length]? = some frame := by
    obtain ⟨rest, hrest⟩ := hprefix
    rw [← hrest]
    simp
  rw [netStep, hat, Option.map_some, Option.some.injEq] at harrive
  subst harrive
  -- the frame is that of the datagram
  obtain ⟨packet, hpacket, rfl⟩ := Option.map_eq_some_iff.mp hframe
  rcases packet with ⟨mac, packet⟩
  obtain rfl := ipv4SendPacket_packet hpacket
  have hreceive : byteStack.receive (s₂.host i) (ethernetFrame (s.host j).mac mac ethertypeIpv4
      (ipv4Packet sourceIp destinationIp ipProtocolUdp (udpPacket sourceIp sourcePort destinationIp
        destinationPort data) data)) behind =
      ((s₂.host i).listen destinationPort.toNat data, none) :=
    hostReceive_datagram hlen (holds_frameMemory _ behind)
  refine ⟨?_, fun k hk => ?_, ?_⟩
  · simp [Network.put, hreceive]
  · simp [Network.put, hk]
  · simp only [Network.put, hreceive, Function.update_self, Host.listen]
    rcases (s₂.host i).udpListeners.bind fun f => f destinationPort.toNat with _ | listener
    · simp
    · simp

/-- The same hosts when both know the second one and this one listens on port 7. -/
def pairKnowing : Network Bool (List UInt8) where
  host i :=
    { pairNetwork.host i with
      arp := arpProcessReply (arpInit listGoesOn)
        ⟨arpOpReply, Vector.replicate 6 2, Vector.replicate 4 20, Vector.replicate 4 10⟩
      udpListeners := some fun port => if port = 7 then some 99 else none }
  wire := []

/-- The listener gets its three bytes, once. -/
theorem datagram_delivered_pair : ∃ s₂ s₃ : Network Bool (List UInt8),
    netStep byteStack s₂ (.deliver true 0 fun _ => 0xFF) = some s₃ ∧ s₃.wire = s₂.wire ∧
      (s₃.host true).received = (s₂.host true).received ++ [(7, 99, [1, 2, 3])] := by
  have hknown : (hostSend (pairKnowing.host false) (Vector.replicate 4 10) 5 (Vector.replicate 4 20)
      7 [1, 2, 3]).isSome := by decide +kernel
  obtain ⟨s₁, h₁⟩ : ∃ s₁, netStep byteStack pairKnowing
      (.send false (Vector.replicate 4 10) 5 (Vector.replicate 4 20) 7 [1, 2, 3]) = some s₁ :=
    ⟨_, rfl⟩
  have harrives : (netStep byteStack s₁ (.deliver true 0 fun _ => 0xFF)).isSome := by
    obtain rfl := Option.some.inj h₁
    decide +kernel
  obtain ⟨s₃, h₃⟩ := Option.isSome_iff_exists.mp harrives
  have h := datagram_delivered (by decide) hknown h₁ (.nil s₁) (fun _ => 0xFF) h₃
  refine ⟨s₁, s₃, h₃, h.1, ?_⟩
  obtain rfl := Option.some.inj h₁
  rw [h.2.2]
  rfl

end DosKernel.Net
