import DosKernel.Net.Deliveries

/-! What ARP does in a network of hosts: an address is only ever taken for that of a host that
has or had it, and a question that reaches its owner, and whose answer comes back, is answered. -/

namespace DosKernel.Net

open Lib

variable {ι : Type*} {es : List (NetEvent ι)}

/-! ### No wrong entries -/

/-- A host with this MAC address had this IP address, from the start or by its configuration. -/
def HadAddress {W : Type*} (start : Network ι W) (es : List (NetEvent ι)) (mac : Mac) (ip : Ip) :
    Prop :=
  ∃ j, (start.host j).mac = mac ∧
    ((start.host j).driver.ip = ip ∨ ∃ driver, .configure j driver ∈ es ∧ driver.ip = ip)

/-- A host keeps its MAC address, and what it says and has stored are addresses of hosts. -/
structure SpeaksTrue {W : Type*} (start : Network ι W) (es : List (NetEvent ι)) (i : ι) (h : Host) :
    Prop where
  mac_eq : h.mac = (start.host i).mac
  own : HadAddress start es h.mac h.driver.ip
  entries : ∀ m ∈ h.arp.entries, HadAddress start es m.mac m.ip

/-- The sender of an ARP packet has the addresses that stand in it. -/
def Message.SpeaksTrue {W : Type*} (start : Network ι W) (es : List (NetEvent ι)) : Message → Prop
  | .request senderMac senderIp _ => HadAddress start es senderMac senderIp
  | .reply senderMac senderIp _ _ => HadAddress start es senderMac senderIp
  | .datagram _ _ _ _ _ _ _ => True

section SpeaksTrue

variable {W : Type*} {start : Network ι W} {i : ι} {h h' : Host}

theorem SpeaksTrue.congr (ht : SpeaksTrue start es i h) (hmac : h'.mac = h.mac)
    (hdriver : h'.driver = h.driver) (harp : h'.arp = h.arp) : SpeaksTrue start es i h' where
  mac_eq := hmac.trans ht.mac_eq
  own := by
    rw [hmac, hdriver]
    exact ht.own
  entries := by
    rw [harp]
    exact ht.entries

theorem Host.listen_arp (h : Host) (port : ℕ) (data : List UInt8) :
    (h.listen port data).mac = h.mac ∧ (h.listen port data).driver = h.driver ∧
      (h.listen port data).arp = h.arp := by
  unfold Host.listen
  split <;> exact ⟨rfl, rfl, rfl⟩

theorem speaksTrue_kept (start : Network ι W) (es : List (NetEvent ι)) :
    Kept es (SpeaksTrue start es) (Message.SpeaksTrue start es) where
  configure i h driver ht he :=
    { mac_eq := ht.mac_eq
      own := ⟨i, ht.mac_eq.symm, .inr ⟨driver, he, rfl⟩⟩
      entries := ht.entries }
  ask _ _ _ ht := ht.own
  send _ _ _ _ _ _ _ _ _ _ := trivial
  receive i h message hroom ht hm := by
    cases message with
    | request => exact ht
    | reply senderMac senderIp targetMac targetIp =>
      refine ⟨ht.mac_eq, ht.own, fun m hmem => ?_⟩
      rw [Message.receive, entries_reply h.arp _ hroom] at hmem
      rcases List.mem_append.mp hmem with hold | hnew
      · exact ht.entries m hold
      · obtain rfl := List.mem_singleton.mp hnew
        exact hm
    | datagram =>
      obtain ⟨hmac, hdriver, harp⟩ := h.listen_arp _ _
      exact ht.congr hmac hdriver harp
  answer i h message answer ht _ hanswer := by
    cases message with
    | request senderMac senderIp targetIp =>
      simp only [Message.receive] at hanswer
      split_ifs at hanswer
      obtain rfl := Option.some.inj hanswer
      exact ht.own
    | reply => cases hanswer
    | datagram => cases hanswer
  udpInit _ _ ht := ht.congr rfl rfl rfl
  install _ _ _ _ _ ht _ _ := ht.congr rfl rfl rfl
  uninstall _ _ _ _ ht _ := ht.congr rfl rfl rfl

end SpeaksTrue

variable [DecidableEq ι]

/-- In every run of a network of hosts that starts with an empty wire and empty ARP lists,
whatever is lost, repeated or reordered: when a host takes a MAC address for that of an IP
address, then it is the MAC address of a host that had this IP address. -/
theorem arp_entries_right {s s' : Network ι (List UInt8)} (hwire : s.wire = [])
    (hstart : ∀ i, (s.host i).arp.currArp = 0)
    (hrun : Run (netStep byteStack) NetAllowed s es s') {i : ι} {ip : Ip} {mac : Mac}
    (hmac : (lookup (s'.host i).arp ip).1 = some mac) : HadAddress s es mac ip := by
  have hspeaks : ∀ i, SpeaksTrue s es i (s.host i) := fun i =>
    { mac_eq := rfl
      own := ⟨i, rfl, .inl rfl⟩
      entries := by simp [ArpCache.entries, hstart i] }
  rw [lookup_eq] at hmac
  obtain ⟨m, hm, rfl⟩ := Option.map_eq_some_iff.mp hmac
  have hip : m.ip = ip := by simpa using List.find?_some hm
  rw [← hip]
  exact ((speaksTrue_kept s es).of_run hwire hspeaks hrun i).entries m (List.mem_of_find?_eq_some hm)

/-- The second host of the pair is found. -/
theorem arp_entries_right_pair : ∃ s, Run (netStep byteStack) NetAllowed pairNetwork pairEvents s ∧
    (lookup (s.host false).arp (Vector.replicate 4 20)).1 = some (Vector.replicate 6 2) ∧
    HadAddress pairNetwork pairEvents (Vector.replicate 6 2) (Vector.replicate 4 20) := by
  have hfound : (pairEvents.foldlM
      (fun s e => if NetAllowed s e then netStep byteStack s e else none) pairNetwork).map
        (fun s : Network Bool (List UInt8) =>
          (lookup (s.host false).arp (Vector.replicate 4 20)).1) =
            some (some (Vector.replicate 6 2)) := by decide
  obtain ⟨s, hs, hmac⟩ := Option.map_eq_some_iff.mp hfound
  have hrun := Run.of_checked hs
  exact ⟨s, hrun, hmac, arp_entries_right rfl (fun _ => rfl) hrun hmac⟩

/-! ### Questions are answered -/

/-- A host asks for an address. Whatever happens then, when the question reaches a host that has
the address, and, whatever happens after that, its answer reaches the host that asked and finds
room in the list, this host knows the MAC address of the other, unless it already knew one. -/
theorem arp_resolves {s s₁ s₂ s₃ s₄ s₅ : Network ι (List UInt8)} {i j : ι} {ip : Ip}
    (hask : netStep byteStack s (.request i ip) = some s₁) {es' : List (NetEvent ι)}
    (hrun : Run (netStep byteStack) NetAllowed s₁ es s₂) (behind behind' : ℕ → UInt8)
    (hquestion : netStep byteStack s₂ (.deliver j s.wire.length behind) = some s₃)
    (hip : (s₂.host j).driver.ip = ip) (hrun' : Run (netStep byteStack) NetAllowed s₃ es' s₄)
    (hanswer : netStep byteStack s₄ (.deliver i s₂.wire.length behind') = some s₅)
    (hroom : (s₄.host i).arp.currArp < arpListLength) :
    (lookup (s₅.host i).arp ip).1 =
      ((lookup (s₄.host i).arp ip).1).or (some (s₂.host j).mac) := by
  -- the frame of the question is still on the wire
  obtain rfl := Option.some.inj hask
  have hat : s₂.wire[s.wire.length]? = some (arpSendRequest (s.host i).mac (s.host i).driver ip) := by
    obtain ⟨rest, hrest⟩ := wire_prefix hrun
    rw [← hrest]
    simp [Network.put, byteStack]
  rw [netStep, hat, Option.map_some, Option.some.injEq] at hquestion
  subst hquestion
  have hreply : (byteStack.receive (s₂.host j)
      (arpSendRequest (s.host i).mac (s.host i).driver ip) behind).2 =
      some (arpSendReply (s₂.host j).mac (s₂.host j).driver (s.host i).driver.ip (s.host i).mac) := by
    have hreceive := hostReceive_arp (h := s₂.host j) (holds_frameMemory
      (arpSendRequest (s.host i).mac (s.host i).driver ip) behind) (by decide)
    simp only [byteStack, hreceive, arpReceivePacket, arpProcessRequest, hip, if_true,
      Option.map_some]
  -- and so is that of the answer
  have hat' : s₄.wire[s₂.wire.length]? = some (arpSendReply (s₂.host j).mac (s₂.host j).driver
      (s.host i).driver.ip (s.host i).mac) := by
    obtain ⟨rest, hrest⟩ := wire_prefix hrun'
    rw [← hrest]
    simp [Network.put, hreply]
  rw [netStep, hat', Option.map_some, Option.some.injEq] at hanswer
  subst hanswer
  have hreceive := hostReceive_arp (h := s₄.host i) (holds_frameMemory
    (arpSendReply (s₂.host j).mac (s₂.host j).driver (s.host i).driver.ip (s.host i).mac) behind')
      (by decide)
  have hentries : ((byteStack.receive (s₄.host i) (arpSendReply (s₂.host j).mac
      (s₂.host j).driver (s.host i).driver.ip (s.host i).mac) behind').1).arp.entries =
      (s₄.host i).arp.entries ++ [⟨ip, (s₂.host j).mac⟩] := by
    have hother : ¬ arpOpReply = arpOpRequest := by decide
    simp only [byteStack, hreceive, arpReceivePacket, hother, if_false, if_true,
      entries_reply _ _ hroom, hip]
  simp only [lookup_eq, Network.put, Function.update_self, hentries, mapping_append]
  simp [mapping]

/-- The first host of the pair finds the second one, with no event between the three. -/
theorem arp_resolves_pair : ∃ s₅ : Network Bool (List UInt8),
    (lookup (s₅.host false).arp (Vector.replicate 4 20)).1 =
      (none : Option Mac).or (some (Vector.replicate 6 2)) := by
  obtain ⟨s₁, h₁⟩ : ∃ s₁, netStep byteStack pairNetwork
      (.request false (Vector.replicate 4 20)) = some s₁ := ⟨_, rfl⟩
  have hquestion : (netStep byteStack s₁ (.deliver true 0 fun _ => 0xFF)).isSome := by
    obtain rfl := Option.some.inj h₁
    decide
  obtain ⟨s₃, h₃⟩ := Option.isSome_iff_exists.mp hquestion
  have hanswer : (netStep byteStack s₃ (.deliver false 1 fun _ => 0xFF)).isSome := by
    obtain rfl := Option.some.inj h₁
    obtain rfl := Option.some.inj h₃
    decide
  obtain ⟨s₅, h₅⟩ := Option.isSome_iff_exists.mp hanswer
  refine ⟨s₅, ?_⟩
  have hwire : s₁.wire.length = 1 := by
    obtain rfl := Option.some.inj h₁
    rfl
  have hip : (s₁.host true).driver.ip = Vector.replicate 4 20 := by
    obtain rfl := Option.some.inj h₁
    rfl
  have hroom : (s₃.host false).arp.currArp < arpListLength := by
    obtain rfl := Option.some.inj h₁
    obtain rfl := Option.some.inj h₃
    decide
  rw [arp_resolves h₁ (.nil s₁) (fun _ => 0xFF) (fun _ => 0xFF) h₃ hip (.nil s₃)
    (by rw [hwire]; exact h₅) hroom]
  obtain rfl := Option.some.inj h₁
  obtain rfl := Option.some.inj h₃
  decide

end DosKernel.Net
