import DosKernel.Net.Packets

/-! The ARP cache. Every reply from the network is appended to `arp_list`, and
`arp_get_mac` goes through the list from the front, again after every wait. The array has
ten elements; an eleventh reply is stored behind it. -/

namespace DosKernel.Net

/-- `arp_packet`, as far as the receive functions read it. -/
structure ArpPacket where
  opcode : ℕ
  senderMac : Mac
  senderIp : Ip
  targetIp : Ip

structure ArpMap where
  ip : Ip
  mac : Mac

/-- The elements of `arp_list`, and `sizeof(arp_list)` in bytes. -/
def arpListLength : ℕ := 10

def arpListSize : ℕ := arpListLength * (4 + 6)

/-- `ARP_OP_REQUEST` and `ARP_OP_REPLY`. -/
def arpOpRequest : ℕ := 0x01

def arpOpReply : ℕ := 0x02

/-- What a store to an element that `arp_list` does not have makes of the list and of `curr_arp`,
which C leaves open. -/
abbrev Overrun := (ℕ → ArpMap) → ℕ → ArpMap → (ℕ → ArpMap) × ℕ

/-- `arp_list` and `curr_arp`, with the indices used so far. -/
structure ArpCache where
  arpList : ℕ → ArpMap
  currArp : ℕ
  log : List ℕ
  overrun : Overrun

/-! ### The code -/

/-- `arp_process_request`: the address that gets a reply. -/
def arpProcessRequest (driver : Driver) (packet : ArpPacket) : Option (Ip × Mac) :=
  if driver.ip = packet.targetIp then some (packet.senderIp, packet.senderMac) else none

/-- The stores of `arp_process_reply` to the element `curr_arp`, and `curr_arp++`. -/
def ArpCache.push (s : ArpCache) (m : ArpMap) : ArpCache :=
  let r := if s.currArp < arpListLength then
      (Function.update s.arpList s.currArp m, s.currArp + 1)
    else s.overrun s.arpList s.currArp m
  { s with arpList := r.1, currArp := r.2, log := s.log ++ [s.currArp] }

def arpProcessReply (s : ArpCache) (packet : ArpPacket) : ArpCache :=
  if s.currArp < arpListSize then s.push ⟨packet.senderIp, packet.senderMac⟩ else s

/-- `arp_receive_packet`, with the address of the reply that is sent. -/
def arpReceivePacket (driver : Driver) (s : ArpCache) (packet : ArpPacket) :
    ArpCache × Option (Ip × Mac) :=
  if packet.opcode = arpOpRequest then (s, arpProcessRequest driver packet)
  else if packet.opcode = arpOpReply then (arpProcessReply s packet, none)
  else (s, none)

/-- The cache after some packets. -/
def receiveAll (driver : Driver) (s : ArpCache) (packets : List ArpPacket) : ArpCache :=
  packets.foldl (fun s packet => (arpReceivePacket driver s packet).1) s

/-- The loop over `arp_list`: the address found, and the indices read. -/
def scan (arpList : ℕ → ArpMap) (ip : Ip) : (left i : ℕ) → Option Mac × List ℕ
  | 0, _ => (none, [])
  | left + 1, i =>
    if (arpList i).ip = ip then (some (arpList i).mac, [i])
    else
      let r := scan arpList ip left (i + 1)
      (r.1, i :: r.2)

/-- One pass over the cache. -/
def lookup (s : ArpCache) (ip : Ip) : Option Mac × ArpCache :=
  let r := scan s.arpList ip s.currArp 0
  (r.1, { s with log := s.log ++ r.2 })

/-- The loop of `arp_get_mac`: in every wait the packets of a round arrive. The rounds that
are not waited for are left over. -/
def waitForMac (driver : Driver) (ip : Ip) :
    (rounds : List (List ArpPacket)) → ArpCache → Option Mac × ArpCache × List (List ArpPacket)
  | [], s => (none, s, [])
  | round :: rounds, s =>
    let r := lookup (receiveAll driver s round) ip
    match r.1 with
    | some mac => (some mac, r.2, rounds)
    | none => waitForMac driver ip rounds r.2

/-- `arp_get_mac`, with as many waits as there are rounds. -/
def arpGetMac (driver : Driver) (ip : Ip) (rounds : List (List ArpPacket)) (s : ArpCache) :
    Option Mac × ArpCache × List (List ArpPacket) :=
  let r := lookup s ip
  match r.1 with
  | some mac => (some mac, r.2, rounds)
  | none => waitForMac driver ip rounds r.2

/-- A packet arrives, or `arp_get_mac` is called and packets arrive from then on. -/
inductive ArpEvent
  | arrival (packet : ArpPacket)
  | getMac (ip : Ip) (rounds : List (List ArpPacket))

/-- The cache after an event; what `arp_get_mac` did not wait for arrives after it. -/
def ArpEvent.run (driver : Driver) (s : ArpCache) : ArpEvent → ArpCache
  | .arrival packet => (arpReceivePacket driver s packet).1
  | .getMac ip rounds =>
    let r := arpGetMac driver ip rounds s
    receiveAll driver r.2.1 r.2.2.flatten

def runEvents (driver : Driver) (s : ArpCache) (es : List ArpEvent) : ArpCache :=
  es.foldl (ArpEvent.run driver) s

/-- The cache at boot: static memory is zero. -/
def arpInit (overrun : Overrun) : ArpCache :=
  ⟨fun _ => ⟨Vector.replicate 4 0, Vector.replicate 6 0⟩, 0, [], overrun⟩

/-! ### Counting the replies -/

def ArpEvent.packets : ArpEvent → List ArpPacket
  | .arrival packet => [packet]
  | .getMac _ rounds => rounds.flatten

def replies (packets : List ArpPacket) : ℕ := packets.countP fun p => p.opcode = arpOpReply

theorem replies_append (ps qs : List ArpPacket) : replies (ps ++ qs) = replies ps + replies qs :=
  List.countP_append

theorem replies_singleton (packet : ArpPacket) :
    replies [packet] = if packet.opcode = arpOpReply then 1 else 0 := by
  simp [replies, List.countP_singleton]

section Counted
variable (driver : Driver) {P : ℕ → ArpCache → Prop} {n : ℕ} {s : ArpCache}
  (hreply : ∀ {n s}, P n s → ∀ packet, P (n + 1) (arpProcessReply s packet))
include hreply

/-- Only replies change the cache: what holds after `n` of them, for every `n`. -/
theorem counted_receive (h : P n s) (packet : ArpPacket) :
    P (n + replies [packet]) (arpReceivePacket driver s packet).1 := by
  rw [arpReceivePacket, replies_singleton]
  by_cases hop : packet.opcode = arpOpReply
  · have hother : packet.opcode ≠ arpOpRequest := by
      rw [hop]
      decide
    rw [if_pos hop, if_neg hother, if_pos hop]
    exact hreply h packet
  · rw [if_neg hop, if_neg hop]
    split_ifs <;> exact h

theorem counted_receiveAll (h : P n s) (packets : List ArpPacket) :
    P (n + replies packets) (receiveAll driver s packets) := by
  induction packets generalizing n s with
  | nil => exact h
  | cons packet packets ih =>
    rw [← List.singleton_append, replies_append, ← Nat.add_assoc]
    exact ih (counted_receive driver hreply h packet)

end Counted

/-- After `n` replies: up to ten, all of them are entries, and no other index was used; after
more, the index behind the array was. -/
structure Filled (n : ℕ) (s : ArpCache) : Prop where
  curr : n ≤ arpListLength → s.currArp = n
  below : n ≤ arpListLength → ∀ i ∈ s.log, i < n
  behind : arpListLength < n → arpListLength ∈ s.log

theorem filled_init (overrun : Overrun) :
    Filled 0 (arpInit overrun) :=
  ⟨fun _ => rfl, fun _ _ hi => absurd hi List.not_mem_nil, fun h => absurd h (Nat.not_lt_zero _)⟩

section Filled
variable (driver : Driver) {n : ℕ} {s : ArpCache}

/-- Nothing but the last reply of the ten leads out of the array. -/
theorem Filled.reply (h : Filled n s) (packet : ArpPacket) :
    Filled (n + 1) (arpProcessReply s packet) := by
  have hsize : arpListLength < arpListSize := by decide
  rcases Nat.lt_trichotomy n arpListLength with hn | rfl | hn
  · have hcurr := h.curr hn.le
    have hroom : s.currArp < arpListSize := by omega
    rw [arpProcessReply, if_pos hroom, ArpCache.push, if_pos (hcurr ▸ hn)]
    refine ⟨fun _ => congrArg (· + 1) hcurr, fun _ i hi => ?_, fun hmore => by omega⟩
    rcases List.mem_append.mp hi with hi | hi
    · exact (h.below hn.le i hi).trans (Nat.lt_succ_self _)
    · rw [List.mem_singleton.mp hi, hcurr]
      exact Nat.lt_succ_self _
  · have hcurr := h.curr le_rfl
    rw [arpProcessReply, if_pos (hcurr ▸ hsize), ArpCache.push, hcurr]
    exact ⟨fun hle => absurd hle (Nat.not_succ_le_self _), fun hle => absurd hle (Nat.not_succ_le_self _),
      fun _ => List.mem_append_right _ List.mem_cons_self⟩
  · refine ⟨fun hle => by omega, fun hle => by omega, fun _ => ?_⟩
    rw [arpProcessReply]
    split_ifs
    · exact List.mem_append_left _ (h.behind hn)
    · exact h.behind hn

theorem Filled.receive (h : Filled n s) (packet : ArpPacket) :
    Filled (n + replies [packet]) (arpReceivePacket driver s packet).1 :=
  counted_receive driver (fun h packet => h.reply packet) h packet

theorem Filled.receiveAll (h : Filled n s) (packets : List ArpPacket) :
    Filled (n + replies packets) (receiveAll driver s packets) :=
  counted_receiveAll driver (fun h packet => h.reply packet) h packets

theorem scan_below (arpList : ℕ → ArpMap) (ip : Ip) (left i : ℕ) :
    ∀ j ∈ (scan arpList ip left i).2, j < i + left := by
  induction left generalizing i with
  | zero => exact fun j hj => absurd hj List.not_mem_nil
  | succ left ih =>
    intro j hj
    rw [scan] at hj
    split_ifs at hj
    · obtain rfl := List.mem_singleton.mp hj
      omega
    · rcases List.mem_cons.mp hj with rfl | hj
      · omega
      · have hlt := ih (i + 1) j hj
        omega

theorem Filled.lookup (h : Filled n s) (ip : Ip) : Filled n (lookup s ip).2 := by
  refine ⟨h.curr, fun hn i hi => ?_, fun hn => List.mem_append_left _ (h.behind hn)⟩
  rcases List.mem_append.mp hi with hi | hi
  · exact h.below hn i hi
  · have hlt := scan_below _ _ _ _ i hi
    rwa [Nat.zero_add, h.curr hn] at hlt

theorem Filled.waits (h : Filled n s) (ip : Ip) (rounds : List (List ArpPacket)) :
    Filled (n + replies rounds.flatten) (Net.receiveAll driver (waitForMac driver ip rounds s).2.1
      (waitForMac driver ip rounds s).2.2.flatten) := by
  induction rounds generalizing n s with
  | nil => exact h
  | cons round rounds ih =>
    have hlookup := (h.receiveAll driver round).lookup ip
    rw [List.flatten_cons, replies_append, ← Nat.add_assoc, waitForMac]
    split
    · exact hlookup.receiveAll driver rounds.flatten
    · exact ih hlookup

theorem Filled.event (h : Filled n s) (e : ArpEvent) :
    Filled (n + replies e.packets) (e.run driver s) := by
  cases e with
  | arrival packet => exact h.receive driver packet
  | getMac ip rounds =>
    have hlookup := h.lookup ip
    simp only [ArpEvent.run, arpGetMac, ArpEvent.packets]
    split
    · exact hlookup.receiveAll driver rounds.flatten
    · exact hlookup.waits driver ip rounds

theorem Filled.events (h : Filled n s) (es : List ArpEvent) :
    Filled (n + replies (es.flatMap ArpEvent.packets)) (runEvents driver s es) := by
  induction es generalizing n s with
  | nil => exact h
  | cons e es ih =>
    rw [List.flatMap_cons, replies_append, ← Nat.add_assoc]
    exact ih (h.event driver e)

end Filled

/-- All indices of `arp_list` that a run uses are inside the array exactly when at most
ten replies are received in it, whatever a store behind the array does. -/
theorem arp_indices_inside_iff (overrun : Overrun)
    (driver : Driver) (es : List ArpEvent) :
    (∀ i ∈ (runEvents driver (arpInit overrun) es).log, i < arpListLength) ↔
      replies (es.flatMap ArpEvent.packets) ≤ arpListLength := by
  have hfilled := (filled_init overrun).events driver es
  rw [Nat.zero_add] at hfilled
  constructor
  · intro h
    by_contra hmore
    have hten := hfilled.behind (not_le.mp hmore)
    exact absurd (h _ hten) (lt_irrefl _)
  · intro h i hi
    exact (hfilled.below h i hi).trans_le h

/-- The list goes on behind the array. -/
def listGoesOn (arpList : ℕ → ArpMap) (i : ℕ) (m : ArpMap) : (ℕ → ArpMap) × ℕ :=
  (Function.update arpList i m, i + 1)

theorem arp_index_outside :
    ¬ ∀ (overrun : Overrun) (driver : Driver)
      (es : List ArpEvent),
      ∀ i ∈ (runEvents driver (arpInit overrun) es).log, i < arpListLength := by
  intro h
  have hten := h listGoesOn ⟨Vector.replicate 4 0, Vector.replicate 4 0, Vector.replicate 4 0⟩
    (List.replicate 11 (.arrival ⟨2, Vector.replicate 6 0, Vector.replicate 4 0, Vector.replicate 4 0⟩))
    10 (by decide)
  exact absurd hten (by decide)

end DosKernel.Net
