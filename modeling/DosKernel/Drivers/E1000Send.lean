import DosKernel.Drivers.E1000

/-! The transmit ring of the e1000 card. `e1000_send_packet` puts a packet into two descriptors,
one for the header and one for the data, moves the tail over both, and waits until the card has
set the status of the second. The card works by itself: whenever its head is not at the tail it
takes the next descriptor, and sends the bytes it has gathered after one with EOP. The interrupts
are off only from the write of TDT on, and the lock is commented out: an interrupt handler or
another process may call the driver while a call is under way, and the descriptors of the two
packets get mixed. The result is about the runs in which the calls do not overlap. -/

namespace DosKernel.E1000

def txLen : ℕ := 256

/-- `E1000_REGBIT_TXD_CMD_EOP`, `E1000_REGBIT_TXD_CMD_RS` and `E1000_REGBIT_TXD_STAT_DD`. -/
def txdCmdEop : UInt8 := 1

def txdCmdRs : UInt8 := 8

def txdStatDd : UInt8 := 1

/-- `e1000_transmit_descriptor`; the checksum fields and `special` are always zero. -/
structure TxDescriptor where
  bufferAddress : ℕ
  length : ℕ
  cmd : UInt8
  status : UInt8

/-- The arguments of `e1000_send_packet`: the addresses of the packet and of its data. -/
structure SendCall where
  packet : ℕ
  data : ℕ
  dataSize : ℕ

/-- Where the driver is in `e1000_send_packet`. -/
inductive SendPoint
  | idle
  | header (c : SendCall)
  | data (c : SendCall)
  | tail (c : SendCall) (slot : ℕ)
  | wait (c : SendCall) (slot : ℕ)

/-- The call under way. -/
def SendPoint.call : SendPoint → Option SendCall
  | .idle => none
  | .header c => some c
  | .data c => some c
  | .tail c _ => some c
  | .wait c _ => some c

/-- Physical memory, the ring, the driver's tail, the registers TDT and TDH, the bytes the card
has gathered, the frames on the wire, the packets handed to the driver so far, and where each of
the processes and interrupt handlers is in the driver. -/
structure TxState where
  memory : ℕ → UInt8
  txBuffer : ℕ → TxDescriptor
  txTail : ℕ
  tdt : ℕ
  tdh : ℕ
  gathered : List UInt8
  wire : List (List UInt8)
  sent : List (List UInt8)
  point : ℕ → SendPoint

/-- `n` bytes of physical memory. -/
def physicalBytes (memory : ℕ → UInt8) (a n : ℕ) : List UInt8 :=
  (List.range n).map fun k => memory (a + k)

/-- `n` bytes from a virtual address on; `phys` is `mmu_get_physical_address`. -/
def virtualBytes (phys : ℕ → ℕ) (memory : ℕ → UInt8) (a n : ℕ) : List UInt8 :=
  (List.range n).map fun k => memory (phys (a + k))

def SendCall.frame (phys : ℕ → ℕ) (memory : ℕ → UInt8) (c : SendCall) : List UInt8 :=
  virtualBytes phys memory c.packet ethernetHeaderSize ++ virtualBytes phys memory c.data c.dataSize

/-! ### The code -/

/-- `e1000_write_transmit_descriptor` at the tail, and the tail moved on. -/
def writeDescriptor (s : TxState) (addr packetSize : ℕ) (cmd : UInt8) : TxState :=
  { s with
    txBuffer := Function.update s.txBuffer s.txTail ⟨addr, packetSize % 65536, cmd, 0⟩
    txTail := (s.txTail + 1) % txLen }

def TxState.goto (s : TxState) (t : ℕ) (p : SendPoint) : TxState :=
  { s with point := Function.update s.point t p }

/-- `t` goes on in `e1000_send_packet`. -/
def driverStep (phys : ℕ → ℕ) (s : TxState) (t : ℕ) : Option TxState :=
  match s.point t with
  | .idle => none
  | .header c =>
    some ((writeDescriptor s (phys c.packet) ethernetHeaderSize txdCmdRs).goto t (.data c))
  | .data c =>
    some ((writeDescriptor s (phys c.data) c.dataSize (txdCmdEop ||| txdCmdRs)).goto t
      (.tail c s.txTail))
  | .tail c slot => some ({ s with tdt := s.txTail }.goto t (.wait c slot))
  | .wait _ slot => some (if (s.txBuffer slot).status = 0 then s else s.goto t .idle)

/-! ### The card -/

/-- The card takes the descriptor at its head, if there is one before the tail. -/
def cardStep (s : TxState) : Option TxState :=
  if s.tdh = s.tdt then none
  else
    let d := s.txBuffer s.tdh
    let bytes := s.gathered ++ physicalBytes s.memory d.bufferAddress d.length
    let eop := d.cmd &&& txdCmdEop ≠ 0
    some { s with
      txBuffer := if d.cmd &&& txdCmdRs ≠ 0 then
          Function.update s.txBuffer s.tdh { d with status := d.status ||| txdStatDd }
        else s.txBuffer
      tdh := (s.tdh + 1) % txLen
      gathered := if eop then [] else bytes
      wire := if eop then s.wire ++ [bytes] else s.wire }

/-- `t` calls the driver or goes on in it, the card works, or other code writes to memory. -/
inductive TxEvent
  | call (t : ℕ) (c : SendCall)
  | driver (t : ℕ)
  | card
  | memory (m : ℕ → UInt8)

def txStep (phys : ℕ → ℕ) (s : TxState) : TxEvent → Option TxState
  | .call t c =>
    match s.point t with
    | .idle => some ({ s with sent := s.sent ++ [c.frame phys s.memory] }.goto t (.header c))
    | _ => none
  | .driver t => driverStep phys s t
  | .card => cardStep s
  | .memory m => some { s with memory := m }

/-- The state after `e1000_transmit_init`. -/
def transmitInit (memory : ℕ → UInt8) : TxState :=
  ⟨memory, fun _ => ⟨0, 0, 0, txdStatDd⟩, 0, 0, 0, [], [], [], fun _ => .idle⟩

/-- The calls do not overlap. Besides, the callers see to it that header and data are each
contiguous in physical memory, that the size fits the length of a descriptor, and that the bytes of
a packet are not written while it is sent. -/
def TxAllowed (phys : ℕ → ℕ) (s : TxState) : TxEvent → Prop
  | .call _ c => (∀ t, s.point t = .idle) ∧
      (∀ k < ethernetHeaderSize, phys (c.packet + k) = phys c.packet + k) ∧
      (∀ k < c.dataSize, phys (c.data + k) = phys c.data + k) ∧ c.dataSize < 65536
  | .memory m => ∀ t c, (s.point t).call = some c → c.frame phys m = c.frame phys s.memory
  | _ => True

/-! ### What the card has still to do -/

section Invariant

variable {phys : ℕ → ℕ} {s s' : TxState} {c : SendCall}

/-- The packet is contiguous where the card reads it, and its size fits. -/
structure SendCall.Plain (phys : ℕ → ℕ) (c : SendCall) : Prop where
  header : ∀ k < ethernetHeaderSize, phys (c.packet + k) = phys c.packet + k
  data : ∀ k < c.dataSize, phys (c.data + k) = phys c.data + k
  size : c.dataSize < 65536

/-- The two descriptors of a call before the card has seen them. -/
def headerDescriptor (phys : ℕ → ℕ) (c : SendCall) : TxDescriptor :=
  ⟨phys c.packet, ethernetHeaderSize, txdCmdRs, 0⟩

def dataDescriptor (phys : ℕ → ℕ) (c : SendCall) : TxDescriptor :=
  ⟨phys c.data, c.dataSize, txdCmdEop ||| txdCmdRs, 0⟩

/-- The card has taken every descriptor, and none of the packet under way is on the wire. -/
structure Owes (phys : ℕ → ℕ) (s : TxState) (c : SendCall) : Prop where
  plain : c.Plain phys
  gathered : s.gathered = []
  wire : s.wire ++ [c.frame phys s.memory] = s.sent

/-- How far the card is while the driver waits for the descriptor `slot`. -/
inductive CardAt (phys : ℕ → ℕ) (s : TxState) (c : SendCall) (slot : ℕ) : Prop
  | header (owes : Owes phys s c) (head : (s.tdh + 1) % txLen = slot)
      (first : s.txBuffer s.tdh = headerDescriptor phys c)
      (second : s.txBuffer slot = dataDescriptor phys c)
  | data (plain : c.Plain phys)
      (gathered : s.gathered = virtualBytes phys s.memory c.packet ethernetHeaderSize)
      (wire : s.wire ++ [c.frame phys s.memory] = s.sent) (head : s.tdh = slot)
      (second : s.txBuffer slot = dataDescriptor phys c)
  | done (gathered : s.gathered = []) (wire : s.wire = s.sent) (head : s.tdh = s.tdt)
      (status : (s.txBuffer slot).status ≠ 0)

/-- What holds when the call under way is at the point `p`. -/
def Sending (phys : ℕ → ℕ) (s : TxState) : SendPoint → Prop
  | .idle => s.txTail = s.tdh ∧ s.tdt = s.tdh ∧ s.gathered = [] ∧ s.wire = s.sent
  | .header c => s.txTail = s.tdh ∧ s.tdt = s.tdh ∧ Owes phys s c
  | .data c => s.txTail = (s.tdh + 1) % txLen ∧ s.tdt = s.tdh ∧ Owes phys s c ∧
      s.txBuffer s.tdh = headerDescriptor phys c
  | .tail c slot => slot = (s.tdh + 1) % txLen ∧ s.txTail = (s.tdh + 2) % txLen ∧ s.tdt = s.tdh ∧
      Owes phys s c ∧ s.txBuffer s.tdh = headerDescriptor phys c ∧
      s.txBuffer slot = dataDescriptor phys c
  | .wait c slot => slot < txLen ∧ s.tdt = (slot + 1) % txLen ∧ s.txTail = s.tdt ∧
      CardAt phys s c slot

/-- One call at most is under way. -/
def TxInv (phys : ℕ → ℕ) (s : TxState) : Prop :=
  s.tdh < txLen ∧ ∃ t, (∀ u, u ≠ t → s.point u = .idle) ∧ Sending phys s (s.point t)

theorem virtualBytes_eq {a n : ℕ} (h : ∀ k < n, phys (a + k) = phys a + k) (memory : ℕ → UInt8) :
    virtualBytes phys memory a n = physicalBytes memory (phys a) n := by
  apply List.map_congr_left
  intro k hk
  rw [h k (List.mem_range.mp hk)]

theorem txInv_init (phys : ℕ → ℕ) (memory : ℕ → UInt8) : TxInv phys (transmitInit memory) :=
  ⟨Nat.zero_lt_succ 255, 0, fun _ _ => rfl, rfl, rfl, rfl, rfl⟩

/-- The one that has called goes on to the point `p`. -/
theorem TxInv.goto {t : ℕ} {p : SendPoint} (hhead : s.tdh < txLen)
    (hidle : ∀ u, u ≠ t → s.point u = .idle) (h : Sending phys (s.goto t p) p) :
    TxInv phys (s.goto t p) := by
  refine ⟨hhead, t, fun u hu => (Function.update_of_ne hu ..).trans (hidle u hu), ?_⟩
  simpa [TxState.goto] using h

theorem txStep_call {t : ℕ} (h : s.point t = .idle) : txStep phys s (.call t c) =
    some ({ s with sent := s.sent ++ [c.frame phys s.memory] }.goto t (.header c)) := by
  simp only [txStep, h]

theorem TxInv.call (h : TxInv phys s) (hidle : ∀ t, s.point t = .idle) (hplain : c.Plain phys)
    (t : ℕ) : TxInv phys
      ({ s with sent := s.sent ++ [c.frame phys s.memory] }.goto t (.header c)) := by
  obtain ⟨hhead, u, -, h⟩ := h
  rw [hidle u] at h
  obtain ⟨htail, htdt, hgathered, hwire⟩ := h
  refine .goto hhead (fun v _ => hidle v) ⟨htail, htdt, hplain, hgathered, ?_⟩
  exact congrArg (· ++ _) hwire

theorem TxInv.driver (h : TxInv phys s) {t : ℕ} (hs : driverStep phys s t = some s') :
    TxInv phys s' := by
  obtain ⟨hhead, u, hidle, h⟩ := h
  obtain rfl : t = u := by
    by_contra hne
    simp [driverStep, hidle t hne] at hs
  rcases hp : s.point t with _ | c | c | ⟨c, slot⟩ | ⟨c, slot⟩
  · simp [driverStep, hp] at hs
  · rw [hp] at h
    obtain ⟨htail, htdt, howes⟩ := h
    simp only [driverStep, hp, Option.some.injEq] at hs
    subst hs
    refine .goto hhead hidle ⟨?_, htdt, ⟨howes.plain, howes.gathered, howes.wire⟩, ?_⟩
    · simp [TxState.goto, writeDescriptor, htail]
    · simp [TxState.goto, writeDescriptor, htail, headerDescriptor, ethernetHeaderSize]
  · rw [hp] at h
    obtain ⟨htail, htdt, howes, hfirst⟩ := h
    simp only [driverStep, hp, Option.some.injEq] at hs
    subst hs
    have hne : s.tdh ≠ s.txTail := by
      rw [htail, txLen] at *
      omega
    refine .goto hhead hidle
      ⟨htail, ?_, htdt, ⟨howes.plain, howes.gathered, howes.wire⟩, ?_, ?_⟩
    · simp only [TxState.goto, writeDescriptor, htail, txLen]
      omega
    · simpa [TxState.goto, writeDescriptor, hne] using hfirst
    · simp [TxState.goto, writeDescriptor, dataDescriptor, Nat.mod_eq_of_lt howes.plain.size]
  · rw [hp] at h
    obtain ⟨hslot, htail, htdt, howes, hfirst, hsecond⟩ := h
    simp only [driverStep, hp, Option.some.injEq] at hs
    subst hs
    refine .goto hhead hidle ⟨?_, ?_, rfl, .header ⟨howes.plain, howes.gathered, howes.wire⟩
      hslot.symm hfirst hsecond⟩
    · rw [hslot]
      exact Nat.mod_lt _ (by decide)
    · simp only [TxState.goto, htail, hslot, txLen]
      omega
  · rw [hp] at h
    obtain ⟨hslot, htdt, htail, hcard⟩ := h
    simp only [driverStep, hp, Option.some.injEq] at hs
    subst hs
    split_ifs with hstatus
    · refine ⟨hhead, t, hidle, ?_⟩
      rw [hp]
      exact ⟨hslot, htdt, htail, hcard⟩
    · -- the status is set: the card is done with the packet
      cases hcard with
      | header _ _ _ second => exact absurd (by simp [second, dataDescriptor]) hstatus
      | data _ _ _ _ second => exact absurd (by simp [second, dataDescriptor]) hstatus
      | done gathered wire head _ =>
        exact .goto hhead hidle ⟨htail.trans head.symm, head.symm, gathered, wire⟩

/-- With nothing left before the tail the card does nothing. -/
theorem cardStep_of_eq (h : s.tdh = s.tdt) : cardStep s = none := if_pos h

/-- The card takes the header: it gathers its bytes. -/
theorem cardStep_header (hne : s.tdh ≠ s.tdt) (hplain : c.Plain phys)
    (hfirst : s.txBuffer s.tdh = headerDescriptor phys c) :
    cardStep s = some { s with
      txBuffer := Function.update s.txBuffer s.tdh { headerDescriptor phys c with status := 1 }
      tdh := (s.tdh + 1) % txLen
      gathered := s.gathered ++ virtualBytes phys s.memory c.packet ethernetHeaderSize } := by
  have hcmd : txdCmdRs &&& txdCmdEop = 0 ∧ txdCmdRs ≠ 0 ∧ (0 : UInt8) ||| txdStatDd = 1 := by decide
  rw [virtualBytes_eq hplain.header, cardStep, if_neg hne]
  simp [hfirst, headerDescriptor, hcmd]

/-- The card takes the data: it sends the frame and sets the status. -/
theorem cardStep_data (hne : s.tdh ≠ s.tdt) (hplain : c.Plain phys)
    (hsecond : s.txBuffer s.tdh = dataDescriptor phys c) :
    cardStep s = some { s with
      txBuffer := Function.update s.txBuffer s.tdh { dataDescriptor phys c with status := 1 }
      tdh := (s.tdh + 1) % txLen
      gathered := []
      wire := s.wire ++ [s.gathered ++ virtualBytes phys s.memory c.data c.dataSize] } := by
  have hcmd : (txdCmdEop ||| txdCmdRs) &&& txdCmdEop ≠ 0 ∧
      (txdCmdEop ||| txdCmdRs) &&& txdCmdRs ≠ 0 ∧ (0 : UInt8) ||| txdStatDd = 1 := by decide
  rw [virtualBytes_eq hplain.data, cardStep, if_neg hne]
  simp [hsecond, dataDescriptor, hcmd]

theorem TxInv.card (h : TxInv phys s) (hs : cardStep s = some s') : TxInv phys s' := by
  obtain ⟨hhead, t, hidle, h⟩ := h
  have hne : s.tdh ≠ s.tdt := by
    intro heq
    rw [cardStep_of_eq heq] at hs
    cases hs
  rcases hp : s.point t with _ | c | c | ⟨c, slot⟩ | ⟨c, slot⟩ <;> rw [hp] at h
  · exact absurd h.2.1.symm hne
  · exact absurd h.2.1.symm hne
  · exact absurd h.2.1.symm hne
  · exact absurd h.2.2.1.symm hne
  · obtain ⟨hslot, htdt, htail, hcard⟩ := h
    cases hcard with
    | header owes head first second =>
      have hother : slot ≠ s.tdh := by
        rw [← head, txLen] at *
        omega
      rw [cardStep_header hne owes.plain first, Option.some.injEq] at hs
      subst hs
      refine ⟨Nat.mod_lt _ (by decide), t, hidle, ?_⟩
      simp only [hp]
      refine ⟨hslot, htdt, htail, .data owes.plain ?_ owes.wire head ?_⟩
      · simp [owes.gathered]
      · simpa [hother] using second
    | data plain gathered wire head second =>
      rw [← head] at second
      rw [cardStep_data hne plain second, Option.some.injEq] at hs
      subst hs
      refine ⟨Nat.mod_lt _ (by decide), t, hidle, ?_⟩
      simp only [hp]
      refine ⟨hslot, htdt, htail, .done rfl ?_ ?_ ?_⟩
      · simpa [gathered, SendCall.frame] using wire
      · simp [head, htdt]
      · simp [head]
    | done gathered wire head status => exact absurd head hne

/-- Other code writes elsewhere. -/
theorem TxInv.memory (h : TxInv phys s) {m : ℕ → UInt8}
    (hm : ∀ t c, (s.point t).call = some c → c.frame phys m = c.frame phys s.memory) :
    TxInv phys { s with memory := m } := by
  obtain ⟨hhead, t, hidle, h⟩ := h
  have hm' := hm t
  have howes : ∀ c, (s.point t).call = some c → Owes phys s c →
      Owes phys { s with memory := m } c :=
    fun c hc h => ⟨h.plain, h.gathered, (congrArg (fun f => s.wire ++ [f]) (hm' c hc)).trans h.wire⟩
  refine ⟨hhead, t, hidle, ?_⟩
  rcases hp : s.point t with _ | c | c | ⟨c, slot⟩ | ⟨c, slot⟩ <;> rw [hp] at h howes hm'
  · exact h
  · exact ⟨h.1, h.2.1, howes c rfl h.2.2⟩
  · exact ⟨h.1, h.2.1, howes c rfl h.2.2.1, h.2.2.2⟩
  · exact ⟨h.1, h.2.1, h.2.2.1, howes c rfl h.2.2.2.1, h.2.2.2.2⟩
  · obtain ⟨hslot, htdt, htail, hcard⟩ := h
    refine ⟨hslot, htdt, htail, ?_⟩
    have hframe := hm' c rfl
    cases hcard with
    | header owes head first second => exact .header (howes c rfl owes) head first second
    | data plain gathered wire head second =>
      obtain ⟨hheader, hdata⟩ := List.append_inj hframe (by simp [virtualBytes])
      refine .data plain (gathered.trans hheader.symm) ?_ head second
      rw [← wire, ← hframe]
    | done gathered wire head status => exact .done gathered wire head status

theorem TxInv.step (h : TxInv phys s) {e : TxEvent} (hc : TxAllowed phys s e)
    (hs : txStep phys s e = some s') : TxInv phys s' := by
  cases e with
  | call t c =>
    obtain ⟨hidle, hheader, hdata, hsize⟩ := hc
    rw [txStep_call (hidle t), Option.some.injEq] at hs
    subst hs
    exact h.call hidle ⟨hheader, hdata, hsize⟩ t
  | driver t => exact h.driver hs
  | card => exact h.card hs
  | memory m =>
    obtain rfl := Option.some.inj hs
    exact h.memory hc

end Invariant

/-- As long as the calls do not overlap, however the driver, the card and the rest of the kernel
interleave: the frames on the wire are the packets handed to the driver, each once and in order,
without at most the one under way; when no call is under way none is missing. And the driver never
waits for a card that has nothing left to do. -/
theorem packets_sent_once (phys : ℕ → ℕ) (memory : ℕ → UInt8) {es : List TxEvent} {s : TxState}
    (hrun : Lib.Run (txStep phys) (TxAllowed phys) (transmitInit memory) es s) :
    (s.wire = s.sent ∨ (∃ t, s.point t ≠ .idle) ∧ ∃ frame, s.wire ++ [frame] = s.sent) ∧
    ∀ t c slot, s.point t = .wait c slot → (s.txBuffer slot).status = 0 →
      (cardStep s).isSome := by
  have hinv : TxInv phys s := hrun.invariant (fun _ _ _ h hc hs => h.step hc hs)
    (txInv_init phys memory)
  obtain ⟨hhead, t, hidle, h⟩ := hinv
  refine ⟨?_, fun u c slot hp hstatus => ?_⟩
  · rcases hp : s.point t with _ | c | c | ⟨c, slot⟩ | ⟨c, slot⟩ <;> rw [hp] at h
    · exact .inl h.2.2.2
    · exact .inr ⟨⟨t, by simp [hp]⟩, _, h.2.2.wire⟩
    · exact .inr ⟨⟨t, by simp [hp]⟩, _, h.2.2.1.wire⟩
    · exact .inr ⟨⟨t, by simp [hp]⟩, _, h.2.2.2.1.wire⟩
    · cases h.2.2.2 with
      | header owes head first second => exact .inr ⟨⟨t, by simp [hp]⟩, _, owes.wire⟩
      | data plain gathered wire head second => exact .inr ⟨⟨t, by simp [hp]⟩, _, wire⟩
      | done gathered wire head status => exact .inl wire
  · obtain rfl : u = t := by
      by_contra hne
      rw [hidle u hne] at hp
      cases hp
    rw [hp] at h
    obtain ⟨hslot, htdt, -, hcard⟩ := h
    rw [cardStep]
    cases hcard with
    | header owes head first second =>
      have hne : s.tdh ≠ s.tdt := by
        rw [htdt, ← head, txLen] at *
        omega
      simp [hne]
    | data plain gathered wire head second =>
      have hne : s.tdh ≠ s.tdt := by
        rw [htdt, head, txLen] at *
        omega
      simp [hne]
    | done gathered wire head status => exact absurd hstatus status

theorem TxState.goto_idle {s : TxState} {t u : ℕ} {p : SendPoint}
    (h : u ≠ t → s.point u = .idle) (hp : u = t → p = .idle) : (s.goto t p).point u = .idle := by
  rcases eq_or_ne u t with rfl | hne
  · simpa [TxState.goto] using hp rfl
  · simpa [TxState.goto, hne] using h hne

/-- A packet of 18 bytes at 0x1000, with its data at 0x2000, is sent. Then the memory is written
over, and another one calls. -/
theorem packets_sent_once_short : ∃ s, Lib.Run (txStep id) (TxAllowed id)
      (transmitInit fun a => UInt8.ofNat a)
      ([.call 1 ⟨0x1000, 0x2000, 4⟩, .driver 1, .driver 1, .driver 1, .card, .driver 1, .card,
        .driver 1] ++ [.memory fun _ => 0xFF, .call 2 ⟨0x1000, 0x2000, 4⟩]) s ∧
    s.wire = [[0, 1, 2, 3, 4, 5, 6, 7, 8, 9, 10, 11, 12, 13, 0, 1, 2, 3]] ∧
    (s.wire = s.sent ∨ (∃ t, s.point t ≠ .idle) ∧ ∃ frame, s.wire ++ [frame] = s.sent) := by
  obtain ⟨s, hsent, hidle, hwire⟩ : ∃ s, Lib.Run (txStep id) (TxAllowed id)
      (transmitInit fun a => UInt8.ofNat a)
      [.call 1 ⟨0x1000, 0x2000, 4⟩, .driver 1, .driver 1, .driver 1, .card, .driver 1, .card,
        .driver 1] s ∧ (∀ t, s.point t = .idle) ∧
      s.wire = [[0, 1, 2, 3, 4, 5, 6, 7, 8, 9, 10, 11, 12, 13, 0, 1, 2, 3]] := by
    refine ⟨_, .cons ⟨fun _ => rfl, fun _ _ => rfl, fun _ _ => rfl, by decide⟩ rfl <|
      .cons trivial rfl <| .cons trivial rfl <| .cons trivial rfl <| .cons trivial rfl <|
      .cons trivial rfl <| .cons trivial rfl <| .cons trivial rfl (.nil _), fun t => ?_, by decide⟩
    refine TxState.goto_idle (fun ht => ?_) fun _ => rfl
    exact (Function.update_of_ne ht ..).trans <| (Function.update_of_ne ht ..).trans <|
      (Function.update_of_ne ht ..).trans <| (Function.update_of_ne ht ..).trans rfl
  have hmemory : TxAllowed id s (.memory fun _ => 0xFF) := by
    intro t c hc
    rw [hidle t] at hc
    cases hc
  have hcall : TxAllowed id { s with memory := fun _ => 0xFF } (.call 2 ⟨0x1000, 0x2000, 4⟩) :=
    ⟨hidle, fun _ _ => rfl, fun _ _ => rfl, by decide⟩
  have hrun := hsent.trans (.cons hmemory rfl <| .single hcall (txStep_call (hidle 2)))
  exact ⟨_, hrun, hwire, (packets_sent_once id _ hrun).1⟩

end DosKernel.E1000
