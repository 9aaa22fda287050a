import DosKernel.Net.ArpAnswers

/-! The next hop of `ipv4_send_packet`, with the cache and the waits of `arp_get_mac`. An
address of the own network that was found does not end the choice: the condition of its
branch fails and the branch of the gateway follows. -/

namespace DosKernel.Net

/-! ### The code -/

/-- The waits of `arp_get_mac(..., 100)`. -/
def arpWaits : ℕ := 100 / 10

/-- What arrives in the waits of a lookup that begins at time `t`. -/
def waitsFrom (arrivals : ℕ → List ArpPacket) (t : ℕ) : List (List ArpPacket) :=
  (List.range arpWaits).map fun j => arrivals (t + j)

/-- `arp_get_mac` at time `t`: the answer, the cache and the time of the return. -/
def arpGetMacAt (driver : Driver) (arrivals : ℕ → List ArpPacket) (ip : Ip) (s : ArpCache) (t : ℕ) :
    Option Mac × ArpCache × ℕ :=
  let r := arpGetMac driver ip (waitsFrom arrivals t) s
  (r.1, r.2.1, t + (arpWaits - r.2.2.length))

/-- The branch of the gateway, at time `t`. -/
def sendToGateway (driver : Driver) (arrivals : ℕ → List ArpPacket) (packet : List UInt8)
    (s : ArpCache) (t : ℕ) : Option (Mac × List UInt8) × ArpCache :=
  let r := arpGetMacAt driver arrivals driver.gateway s t
  (r.1.map fun mac => (mac, packet), r.2.1)

/-- `ipv4_send_packet`: the frame for `ethernet_send_packet`, and the cache. -/
def ipv4SendWaiting (driver : Driver) (arrivals : ℕ → List ArpPacket) (s : ArpCache)
    (sourceIp destinationIp : Ip) (protocol : UInt8) (protocolPacket data : List UInt8) :
    Option (Mac × List UInt8) × ArpCache :=
  let packet := ipv4Packet sourceIp destinationIp protocol protocolPacket data
  if destinationIp = Vector.replicate 4 255 then (some (Vector.replicate 6 255, packet), s)
  else if ipv4IsCidrSubnet destinationIp driver.ip driver.netmask then
    match arpGetMacAt driver arrivals destinationIp s 0 with
    | (none, s', _) => (none, s')
    | (some _, s', t) => sendToGateway driver arrivals packet s' t
  else sendToGateway driver arrivals packet s 0

/-! ### The cache in the course of time -/

section Time
variable (driver : Driver) (arrivals : ℕ → List ArpPacket) (s : ArpCache) (ip : Ip)

/-- What has arrived by time `t`. -/
def arrivedBy (t : ℕ) : List ArpPacket := (List.range t).flatMap arrivals

/-- The entries of the cache at time `t`. -/
def knownAt (t : ℕ) : List ArpMap := (receiveAll driver s (arrivedBy arrivals t)).entries

/-- A lookup that begins at time `t` finds the address at time `k`. -/
structure LearnsAt (t k : ℕ) : Prop where
  from_le : t ≤ k
  le : k ≤ t + arpWaits
  before : ∀ j, t ≤ j → j < k → mapping (knownAt driver arrivals s j) ip = none
  found : mapping (knownAt driver arrivals s k) ip ≠ none

@[simp] theorem waitsFrom_length (t : ℕ) : (waitsFrom arrivals t).length = arpWaits := by
  simp [waitsFrom]

theorem arrivedBy_add (t j : ℕ) (h : j ≤ arpWaits) :
    arrivedBy arrivals (t + j) = arrivedBy arrivals t ++ ((waitsFrom arrivals t).take j).flatten := by
  unfold arrivedBy waitsFrom
  rw [List.range_add, List.flatMap_append, ← List.map_take, List.take_range, Nat.min_eq_left h,
    List.flatMap_map]
  rfl

theorem arrivedBy_prefix {t k : ℕ} (htk : t ≤ k) : arrivedBy arrivals t <+: arrivedBy arrivals k := by
  obtain ⟨j, rfl⟩ := Nat.exists_eq_add_of_le htk
  unfold arrivedBy
  rw [List.range_add, List.flatMap_append]
  exact List.prefix_append _ _

/-- More has arrived later, and as long as the array has room for it, an address keeps what it is
mapped to. -/
theorem mapping_knownAt {t k l : ℕ} {mac : Mac} (htk : t ≤ k) (hkl : k ≤ l)
    (hroom : s.currArp + replies (arrivedBy arrivals l) ≤ arpListLength)
    (h : mapping (knownAt driver arrivals s t) ip = some mac) :
    mapping (knownAt driver arrivals s k) ip = some mac := by
  obtain ⟨later, hlater⟩ := arrivedBy_prefix arrivals htk
  obtain ⟨rest, hrest⟩ := arrivedBy_prefix arrivals hkl
  unfold knownAt at *
  rw [← hrest, ← hlater, replies_append, replies_append] at hroom
  rw [entries_receiveAll driver s _ (by omega)] at h
  rw [← hlater, entries_receiveAll driver s _ (by rw [replies_append]; omega), answers_append,
    ← List.append_assoc, mapping_append, h]
  rfl

variable {s} in
theorem known_waits {s' : ArpCache} {t j : ℕ} (h : After driver s (arrivedBy arrivals t) s')
    (hj : j ≤ arpWaits) :
    known driver s' (waitsFrom arrivals t) j = knownAt driver arrivals s (t + j) := by
  unfold known knownAt
  rw [arrivedBy_add arrivals t j hj]
  exact (h.append ((waitsFrom arrivals t).take j).flatten).entries

variable {s} in
theorem arpGetMacAt_learns {s' : ArpCache} {t k : ℕ} (h : After driver s (arrivedBy arrivals t) s')
    (hk : LearnsAt driver arrivals s ip t k) :
    ∃ s'', arpGetMacAt driver arrivals ip s' t =
        (mapping (knownAt driver arrivals s k) ip, s'', k) ∧
      After driver s (arrivedBy arrivals k) s'' := by
  obtain ⟨j, rfl⟩ := Nat.exists_eq_add_of_le hk.from_le
  have hj : j ≤ arpWaits := Nat.le_of_add_le_add_left hk.le
  have hlearns : Learns driver s' ip (waitsFrom arrivals t) j := by
    constructor
    · rw [waitsFrom_length]
      exact hj
    · intro i hi
      rw [known_waits driver arrivals h (hi.le.trans hj)]
      exact hk.before (t + i) (Nat.le_add_right t i) (Nat.add_lt_add_left hi t)
    · rw [known_waits driver arrivals h hj]
      exact hk.found
  obtain ⟨s'', heq, hafter⟩ := arpGetMac_learns driver s' ip hlearns
  rw [known_waits driver arrivals h hj] at heq
  refine ⟨s'', ?_, ?_⟩
  · unfold arpGetMacAt
    rw [heq]
    dsimp only
    rw [List.length_drop, waitsFrom_length, Nat.sub_sub_self hj]
  · rw [arrivedBy_add arrivals t j hj]
    exact h.trans hafter

variable {s} in
theorem arpGetMacAt_fails {s' : ArpCache} {t : ℕ} (h : After driver s (arrivedBy arrivals t) s')
    (hfails : ∀ k, ¬ LearnsAt driver arrivals s ip t k) :
    (arpGetMacAt driver arrivals ip s' t).1 = none := by
  rcases learns_or_fails driver s' ip (waitsFrom arrivals t) with ⟨j, hj⟩ | hnone
  · have hle := hj.le
    rw [waitsFrom_length] at hle
    refine absurd ?_ (hfails (t + j))
    constructor
    · exact Nat.le_add_right t j
    · exact Nat.add_le_add_left hle t
    · intro i hti hi
      obtain ⟨l, rfl⟩ := Nat.exists_eq_add_of_le hti
      have hlj : l < j := Nat.lt_of_add_lt_add_left hi
      rw [← known_waits driver arrivals h (hlj.le.trans hle)]
      exact hj.before l hlj
    · rw [← known_waits driver arrivals h hle]
      exact hj.found
  · obtain ⟨s'', heq, -⟩ := arpGetMac_fails driver s' ip hnone
    unfold arpGetMacAt
    rw [heq]

variable {driver arrivals s ip} in
theorem LearnsAt.unique {t k l : ℕ} (hk : LearnsAt driver arrivals s ip t k)
    (hl : LearnsAt driver arrivals s ip t l) : k = l := by
  rcases Nat.lt_trichotomy k l with hlt | heq | hlt
  · exact absurd (hl.before k hk.from_le hlt) hk.found
  · exact heq
  · exact absurd (hk.before l hl.from_le hlt) hl.found

theorem after_start : After driver s (arrivedBy arrivals 0) s := Same.refl s

end Time

/-! ### The frame -/

section Frame
variable (driver : Driver) (arrivals : ℕ → List ArpPacket) (s : ArpCache) (packet : List UInt8)

/-- A frame to the gateway carries the address that the cache has for the gateway then. -/
theorem sendToGateway_cases {s' : ArpCache} {t : ℕ} (h : After driver s (arrivedBy arrivals t) s') :
    (∃ k s'', LearnsAt driver arrivals s driver.gateway t k ∧ s''.entries = knownAt driver arrivals s k ∧
      sendToGateway driver arrivals packet s' t =
        ((mapping (knownAt driver arrivals s k) driver.gateway).map fun mac => (mac, packet), s'')) ∨
    (∀ k, ¬ LearnsAt driver arrivals s driver.gateway t k) ∧
      (sendToGateway driver arrivals packet s' t).1 = none := by
  by_cases hlearns : ∃ k, LearnsAt driver arrivals s driver.gateway t k
  · obtain ⟨k, hk⟩ := hlearns
    obtain ⟨s'', heq, hafter⟩ := arpGetMacAt_learns driver arrivals driver.gateway h hk
    refine Or.inl ⟨k, s'', hk, hafter.entries, ?_⟩
    unfold sendToGateway
    rw [heq]
  · rw [not_exists] at hlearns
    refine Or.inr ⟨hlearns, ?_⟩
    have hnone := arpGetMacAt_fails driver arrivals driver.gateway h hlearns
    exact congrArg (Option.map fun mac => (mac, packet)) hnone

variable (sourceIp destinationIp : Ip) (protocol : UInt8) (protocolPacket data : List UInt8)

/-- A destination on the own network: both lookups have to answer. -/
theorem ipv4SendWaiting_onLink (hbroadcast : destinationIp ≠ Vector.replicate 4 255)
    (hsubnet : ipv4IsCidrSubnet destinationIp driver.ip driver.netmask = true) :
    (∃ k k' s'', LearnsAt driver arrivals s destinationIp 0 k ∧ LearnsAt driver arrivals s driver.gateway k k' ∧
      s''.entries = knownAt driver arrivals s k' ∧
      ipv4SendWaiting driver arrivals s sourceIp destinationIp protocol protocolPacket data =
        ((mapping (knownAt driver arrivals s k') driver.gateway).map fun mac =>
          (mac, ipv4Packet sourceIp destinationIp protocol protocolPacket data), s'')) ∨
    (∀ k k', LearnsAt driver arrivals s destinationIp 0 k → ¬ LearnsAt driver arrivals s driver.gateway k k') ∧
      (ipv4SendWaiting driver arrivals s sourceIp destinationIp protocol protocolPacket data).1 =
        none := by
  unfold ipv4SendWaiting
  dsimp only
  rw [if_neg hbroadcast, if_pos hsubnet]
  by_cases hlearns : ∃ k, LearnsAt driver arrivals s destinationIp 0 k
  · obtain ⟨k, hk⟩ := hlearns
    obtain ⟨mac, hmac⟩ := Option.ne_none_iff_exists'.mp hk.found
    obtain ⟨s', heq, happends⟩ := arpGetMacAt_learns driver arrivals destinationIp
      (after_start driver arrivals s) hk
    rw [hmac] at heq
    rw [heq]
    rcases sendToGateway_cases driver arrivals s
      (ipv4Packet sourceIp destinationIp protocol protocolPacket data) happends with
      ⟨k', s'', hk', hentries, hsend⟩ | ⟨hnever, hsend⟩
    · exact Or.inl ⟨k, k', s'', hk, hk', hentries, hsend⟩
    · refine Or.inr ⟨fun l k' hl => ?_, hsend⟩
      obtain rfl := hl.unique hk
      exact hnever k'
  · rw [not_exists] at hlearns
    have hnone := arpGetMacAt_fails driver arrivals destinationIp (after_start driver arrivals s) hlearns
    refine Or.inr ⟨fun k k' hk => absurd hk (hlearns k), ?_⟩
    generalize arpGetMacAt driver arrivals destinationIp s 0 = r at *
    obtain ⟨answer, s', t⟩ := r
    obtain rfl : answer = none := hnone
    rfl

/-- A destination elsewhere: the lookup of the gateway has to answer. -/
theorem ipv4SendWaiting_offLink (hbroadcast : destinationIp ≠ Vector.replicate 4 255)
    (hsubnet : ¬ ipv4IsCidrSubnet destinationIp driver.ip driver.netmask = true) :
    (∃ k s'', LearnsAt driver arrivals s driver.gateway 0 k ∧ s''.entries = knownAt driver arrivals s k ∧
      ipv4SendWaiting driver arrivals s sourceIp destinationIp protocol protocolPacket data =
        ((mapping (knownAt driver arrivals s k) driver.gateway).map fun mac =>
          (mac, ipv4Packet sourceIp destinationIp protocol protocolPacket data), s'')) ∨
    (∀ k, ¬ LearnsAt driver arrivals s driver.gateway 0 k) ∧
      (ipv4SendWaiting driver arrivals s sourceIp destinationIp protocol protocolPacket data).1 =
        none := by
  unfold ipv4SendWaiting
  dsimp only
  rw [if_neg hbroadcast, if_neg hsubnet]
  exact sendToGateway_cases driver arrivals s _ (after_start driver arrivals s)

/-- The address to look up for a destination: its own on the same network, otherwise the
gateway's. -/
def nextHop (driver : Driver) (destinationIp : Ip) : Ip :=
  if ipv4IsCidrSubnet destinationIp driver.ip driver.netmask then destinationIp else driver.gateway

/-- A frame that is sent goes to what the cache has for the next hop. -/
def SendsToNextHop : Prop :=
  ∀ mac packet s', ipv4SendWaiting driver arrivals s sourceIp destinationIp protocol protocolPacket
      data = (some (mac, packet), s') →
    mapping s'.entries (nextHop driver destinationIp) = some mac

/-- The frame goes to the next hop exactly when the destination is elsewhere, or a lookup fails
and nothing is sent, or the cache has one MAC for the destination and the gateway. -/
theorem sendsToNextHop_iff (hbroadcast : destinationIp ≠ Vector.replicate 4 255) :
    SendsToNextHop driver arrivals s sourceIp destinationIp protocol protocolPacket data ↔
      (ipv4IsCidrSubnet destinationIp driver.ip driver.netmask = true →
        ∀ k k', LearnsAt driver arrivals s destinationIp 0 k → LearnsAt driver arrivals s driver.gateway k k' →
          mapping (knownAt driver arrivals s k') destinationIp =
            mapping (knownAt driver arrivals s k') driver.gateway) := by
  unfold SendsToNextHop nextHop
  by_cases hsubnet : ipv4IsCidrSubnet destinationIp driver.ip driver.netmask = true
  · simp only [hsubnet, if_true, forall_const]
    rcases ipv4SendWaiting_onLink driver arrivals s sourceIp destinationIp protocol protocolPacket
      data hbroadcast hsubnet with ⟨k, k', s'', hk, hk', hentries, hsend⟩ | ⟨hnever, hsend⟩
    · obtain ⟨mac, hmac⟩ := Option.ne_none_iff_exists'.mp hk'.found
      rw [hsend, hmac]
      constructor
      · intro h l l' hl hl'
        obtain rfl := hl.unique hk
        obtain rfl := hl'.unique hk'
        rw [hmac, ← hentries]
        exact h mac _ s'' rfl
      · intro h mac' packet s' heq
        simp only [Option.map_some, Prod.mk.injEq, Option.some.injEq] at heq
        obtain ⟨⟨rfl, -⟩, rfl⟩ := heq
        rw [hentries, h k k' hk hk', hmac]
    · constructor
      · exact fun _ k k' hk hk' => absurd hk' (hnever k k' hk)
      · intro _ mac packet s' heq
        rw [heq] at hsend
        exact absurd hsend (by simp)
  · refine iff_of_true (fun mac packet s' heq => ?_) fun h => absurd h hsubnet
    rw [if_neg hsubnet]
    rcases ipv4SendWaiting_offLink driver arrivals s sourceIp destinationIp protocol protocolPacket
      data hbroadcast hsubnet with ⟨k, s'', hk, hentries, hsend⟩ | ⟨hnever, hsend⟩
    · obtain ⟨mac', hmac⟩ := Option.ne_none_iff_exists'.mp hk.found
      rw [hsend, hmac] at heq
      simp only [Option.map_some, Prod.mk.injEq, Option.some.injEq] at heq
      obtain ⟨⟨rfl, -⟩, rfl⟩ := heq
      rw [hentries, hmac]
    · rw [heq] at hsend
      exact absurd hsend (by simp)

/-- As long as all replies fit into the array, what is sent is what `ipv4_send_packet` sends with
the cache of the end. -/
theorem ipv4SendWaiting_eq {frame : Mac × List UInt8} {s' : ArpCache}
    (hroom : s.currArp + replies (arrivedBy arrivals (arpWaits + arpWaits)) ≤ arpListLength)
    (h : ipv4SendWaiting driver arrivals s sourceIp destinationIp protocol protocolPacket data =
      (some frame, s')) :
    ipv4SendPacket driver (mapping s'.entries) sourceIp destinationIp protocol protocolPacket data =
      some frame := by
  unfold ipv4SendPacket
  dsimp only
  by_cases hbroadcast : destinationIp = Vector.replicate 4 255
  · unfold ipv4SendWaiting at h
    dsimp only at h
    rw [if_pos hbroadcast] at h ⊢
    exact (Prod.mk.inj h).1
  · rw [if_neg hbroadcast]
    by_cases hsubnet : ipv4IsCidrSubnet destinationIp driver.ip driver.netmask = true
    · rcases ipv4SendWaiting_onLink driver arrivals s sourceIp destinationIp protocol protocolPacket
        data hbroadcast hsubnet with ⟨k, k', s'', hk, hk', hentries, hsend⟩ | ⟨-, hsend⟩
      · obtain ⟨mac, hmac⟩ := Option.ne_none_iff_exists'.mp hk.found
        have hk₂ : k' ≤ arpWaits + arpWaits := by
          have hfirst := hk.le
          have hsecond := hk'.le
          omega
        have hkept := mapping_knownAt driver arrivals s destinationIp hk'.from_le hk₂ hroom hmac
        rw [hsend, Prod.mk.injEq] at h
        obtain ⟨hframe, rfl⟩ := h
        rw [hentries, hkept, if_neg (by simp)]
        exact hframe
      · rw [h] at hsend
        exact absurd hsend (by simp)
    · rcases ipv4SendWaiting_offLink driver arrivals s sourceIp destinationIp protocol protocolPacket
        data hbroadcast hsubnet with ⟨k, s'', -, hentries, hsend⟩ | ⟨-, hsend⟩
      · rw [hsend, Prod.mk.injEq] at h
        obtain ⟨hframe, rfl⟩ := h
        rw [if_neg (by simp [hsubnet]), hentries]
        exact hframe
      · rw [h] at hsend
        exact absurd hsend (by simp)

end Frame

theorem hopIp_size : #[(10 : UInt8), 0, 2, 15].size = 4 := rfl

theorem hopGateway_size : #[(10 : UInt8), 0, 2, 2].size = 4 := rfl

/-- A host on 10.0.2.0/24 with the gateway 10.0.2.2, and a cache that has the gateway and the
host 10.0.2.3. -/
def hopDriver : Driver :=
  ⟨⟨#[10, 0, 2, 15], hopIp_size⟩, #v[255, 255, 255, 0], ⟨#[10, 0, 2, 2], hopGateway_size⟩⟩

def hopCache : ArpCache :=
  receiveAll hopDriver (arpInit listGoesOn)
    [⟨2, Vector.replicate 6 2, hopDriver.gateway, hopDriver.ip⟩,
      ⟨2, Vector.replicate 6 3, #v[10, 0, 2, 3], hopDriver.ip⟩]

theorem sendsToNextHop_iff_hopDriver :
    (#v[10, 0, 2, 3] : Ip) ≠ Vector.replicate 4 255 ∧
      (SendsToNextHop hopDriver (fun _ => []) hopCache hopDriver.ip #v[10, 0, 2, 3] 17 [] [] ↔
        (ipv4IsCidrSubnet #v[10, 0, 2, 3] hopDriver.ip hopDriver.netmask = true →
          ∀ k k', LearnsAt hopDriver (fun _ => []) hopCache #v[10, 0, 2, 3] 0 k →
            LearnsAt hopDriver (fun _ => []) hopCache hopDriver.gateway k k' →
            mapping (knownAt hopDriver (fun _ => []) hopCache k') #v[10, 0, 2, 3] =
              mapping (knownAt hopDriver (fun _ => []) hopCache k') hopDriver.gateway)) :=
  ⟨by decide, sendsToNextHop_iff hopDriver _ hopCache _ _ _ _ _ (by decide)⟩

/-- The frame for 10.0.2.3 goes to the gateway. -/
theorem neighbour_by_gateway :
    ¬ ∀ (driver : Driver) (arrivals : ℕ → List ArpPacket) (s : ArpCache) (sourceIp destinationIp : Ip)
      (protocol : UInt8) (protocolPacket data : List UInt8),
      destinationIp ≠ Vector.replicate 4 255 →
      SendsToNextHop driver arrivals s sourceIp destinationIp protocol protocolPacket data := by
  intro h
  have hother : (#v[10, 0, 2, 3] : Ip) ≠ Vector.replicate 4 255 := by decide
  have hsubnet : ipv4IsCidrSubnet #v[10, 0, 2, 3] hopDriver.ip hopDriver.netmask = true := by
    decide +kernel
  have hneighbour : mapping hopCache.entries #v[10, 0, 2, 3] = some (Vector.replicate 6 3) := by
    decide
  have hgateway : mapping hopCache.entries hopDriver.gateway = some (Vector.replicate 6 2) := by
    decide
  have hsend : ipv4SendWaiting hopDriver (fun _ => []) hopCache hopDriver.ip #v[10, 0, 2, 3] 17 [] [] =
      (some (Vector.replicate 6 2, ipv4Packet hopDriver.ip #v[10, 0, 2, 3] 17 [] []),
        (lookup (lookup hopCache #v[10, 0, 2, 3]).2 hopDriver.gateway).2) := by
    simp only [ipv4SendWaiting, if_neg hother, if_pos hsubnet, sendToGateway, arpGetMacAt,
      arpGetMac_of_some hopDriver _ _ _ hneighbour,
      arpGetMac_of_some hopDriver (lookup hopCache _).2 _ _ hgateway, Option.map_some]
  have hmac := h hopDriver (fun _ => []) hopCache hopDriver.ip #v[10, 0, 2, 3] 17 [] [] hother
    (Vector.replicate 6 2) _ _ hsend
  rw [nextHop, if_pos hsubnet, lookup_entries, lookup_entries, hneighbour] at hmac
  exact absurd hmac (by decide)

end DosKernel.Net
