import DosKernel.Lib.Ring
import DosKernel.Lib.Runs

/-! The receive ring of the e1000 card. The card fills the descriptors in ring order and
sets DD; the driver passes the frames on from its tail, clears the status of those it
passes on, and leaves the descriptors with an error or without EOP as they are. The tail
comes to these again a turn later. The driver gives a descriptor back, by clearing its
status, before it has read the frame: when the ring is full, the card may fill it again
in between. -/

namespace DosKernel.E1000

open Lib

/-- `e1000_receive_descriptor` with the buffer it points to: the bits DD and EOP of the
status, the errors, and the bytes of the frame, as many as the length says. -/
structure RxDescriptor where
  dd : Bool
  eop : Bool
  errors : UInt8
  frame : List UInt8

def rxLen : ℕ := 256

def ethernetHeaderSize : ℕ := 14

/-- The ring with the tail of the driver, the register RDT, the slot that the card fills
next, and the frames passed to `ethernet_process_packet`; `good` are the frames that the
card has written without an error and with EOP, in this order. Among them are the
error-free frames of one descriptor, and the ends of longer ones. -/
structure Ring where
  rxBuffer : ℕ → RxDescriptor
  rxTail : ℕ
  rdt : ℕ
  head : ℕ
  passed : List (List UInt8)
  good : List (List UInt8)

/-- The frame of a completed descriptor with EOP and without an error. -/
def RxDescriptor.deliverable (d : RxDescriptor) : Option (List UInt8) :=
  if d.dd = true ∧ d.eop = true ∧ d.errors = 0 then some d.frame else none

/-- Where the driver is with the descriptor at its tail: what it looks at or does next. It is
idle outside of `e1000_read_packet`. -/
inductive ReadPoint
  | idle
  | errors
  | status
  | clear
  | header
  | process (header : List UInt8)

/-- The ring and the driver. -/
structure Reader where
  ring : Ring
  point : ReadPoint

/-! ### The card -/

/-- The card completes the descriptor at its head. -/
def complete (s : Ring) (frame : List UInt8) (eop : Bool) (errors : UInt8) : Ring :=
  { s with
    rxBuffer := Function.update s.rxBuffer s.head ⟨true, eop, errors, frame⟩
    head := (s.head + 1) % rxLen
    good := s.good ++ (RxDescriptor.deliverable ⟨true, eop, errors, frame⟩).toList }

/-! ### The code -/

/-- The body of the loop in `e1000_read_packet`. -/
def advance (s : Ring) : Ring := { s with rdt := s.rxTail, rxTail := (s.rxTail + 1) % rxLen }

/-- `descriptor->status = 0`. -/
def clearStatus (s : Ring) : Ring :=
  let descriptor := s.rxBuffer s.rxTail
  { s with
    rxBuffer := Function.update s.rxBuffer s.rxTail { descriptor with dd := false, eop := false } }

/-- The next access of `e1000_read_packet` and `e1000_read_receive_descriptor` to the descriptor
at the tail. The header is copied first; length and data are read in the call of
`ethernet_process_packet`. From the idle point the driver is called. -/
def e1000ReadStep (x : Reader) : Reader :=
  let s := x.ring
  let descriptor := s.rxBuffer s.rxTail
  match x.point with
  | .idle => ⟨s, .errors⟩
  | .errors => if descriptor.errors ≠ 0 then ⟨advance s, .errors⟩ else ⟨s, .status⟩
  | .status =>
    if descriptor.dd then
      if !descriptor.eop then ⟨advance s, .errors⟩ else ⟨s, .clear⟩
    else ⟨s, .idle⟩
  | .clear => ⟨clearStatus s, .header⟩
  | .header => ⟨s, .process (descriptor.frame.take ethernetHeaderSize)⟩
  | .process header =>
    ⟨advance { s with
      passed := s.passed ++ [header ++ descriptor.frame.drop ethernetHeaderSize] }, .errors⟩

/-- The card completes a descriptor, or the driver goes on. -/
inductive RingOp
  | complete (frame : List UInt8) (eop : Bool) (errors : UInt8)
  | read

def RingOp.isRead : RingOp → Bool
  | .complete _ _ _ => false
  | .read => true

def Reader.step (x : Reader) : RingOp → Option Reader
  | .complete frame eop errors => some { x with ring := E1000.complete x.ring frame eop errors }
  | .read => some (e1000ReadStep x)

/-- The ring after `e1000_receive_init`. -/
def receiveInit : Reader :=
  ⟨⟨fun _ => ⟨false, false, 0, []⟩, 0, rxLen - 1, 0, [], []⟩, .idle⟩

/-- The card fills only descriptors that are not completed. -/
def FillsOpen (x : Reader) : RingOp → Prop
  | .complete _ _ _ => (x.ring.rxBuffer x.ring.head).dd = false
  | .read => True

/-- The card does not fill the descriptor at the tail of the driver while that one, having cleared
its status, still has to read the frame; nor does it complete it with an error when the driver has
looked at the errors and not yet at the status. -/
def KeepsFrame (x : Reader) : RingOp → Prop
  | .complete _ _ errors =>
    match x.point with
    | .status => x.ring.head = x.ring.rxTail → errors = 0
    | .header | .process _ => x.ring.head ≠ x.ring.rxTail
    | _ => True
  | .read => True

def RxAllowed (x : Reader) (o : RingOp) : Prop := FillsOpen x o ∧ KeepsFrame x o

instance (x : Reader) (o : RingOp) : Decidable (FillsOpen x o) :=
  match o with
  | .complete _ _ _ => inferInstanceAs (Decidable (_ = _))
  | .read => .isTrue trivial

instance (x : Reader) (o : RingOp) : Decidable (KeepsFrame x o) :=
  match x, o with
  | ⟨_, .status⟩, .complete _ _ _ => inferInstanceAs (Decidable (_ → _))
  | ⟨_, .header⟩, .complete _ _ _ | ⟨_, .process _⟩, .complete _ _ _ =>
    inferInstanceAs (Decidable (_ ≠ _))
  | ⟨_, .idle⟩, .complete _ _ _ | ⟨_, .errors⟩, .complete _ _ _ | ⟨_, .clear⟩, .complete _ _ _ =>
    .isTrue trivial
  | _, .read => .isTrue trivial

instance (x : Reader) (o : RingOp) : Decidable (RxAllowed x o) :=
  inferInstanceAs (Decidable (_ ∧ _))

/-! ### Pending descriptors -/

/-- `k` descriptors from the tail on are completed and not yet dealt with. They hold the good
frames that were not passed on, and no other descriptor holds one. The card goes on behind
them, unless the driver has run past a descriptor that it left uncleared and that the card
is waiting for. -/
structure Pending (s : Ring) (k : ℕ) : Prop where
  tail_lt : s.rxTail < rxLen
  le : k ≤ rxLen
  good_eq : s.good = s.passed ++
    (window s.rxBuffer rxLen s.rxTail k).filterMap RxDescriptor.deliverable
  completed : ∀ i < k, (s.rxBuffer ((s.rxTail + i) % rxLen)).dd = true
  others : ∀ j < rxLen, (∀ i < k, j ≠ (s.rxTail + i) % rxLen) →
    (s.rxBuffer j).deliverable = none
  head_eq : s.head = (s.rxTail + k) % rxLen ∨ k = 0 ∧ (s.rxBuffer s.head).dd = true
  errors : ∀ j, (s.rxBuffer j).errors ≠ 0 → (s.rxBuffer j).dd = true
  head_lt : s.head < rxLen

/-- The frames `g` are passed on when the first `n` pending descriptors are dealt with. -/
structure RxOwes (s : Ring) (n : ℕ) (g : List (List UInt8)) : Prop where
  le : ∃ k, n ≤ k ∧ Pending s k
  frames : g <+: s.passed ++
    (window s.rxBuffer rxLen s.rxTail n).filterMap RxDescriptor.deliverable

theorem pending_init : Pending receiveInit.ring 0 := by
  refine ⟨by decide, by decide, rfl, ?_, fun _ _ _ => rfl, .inl rfl, ?_, by decide⟩
  · intro i hi
    omega
  · intro j hj
    exact absurd rfl hj

section Pending
variable {s : Ring} {k n : ℕ} {g : List (List UInt8)}

theorem Pending.head (h : Pending s k) (hopen : (s.rxBuffer s.head).dd = false) :
    s.head = (s.rxTail + k) % rxLen := by
  rcases h.head_eq with hhead | ⟨-, hdd⟩
  · exact hhead
  · rw [hopen] at hdd
    cases hdd

/-- The card fills none of the pending descriptors. -/
theorem Pending.ne_head (h : Pending s k) (hopen : (s.rxBuffer s.head).dd = false) {i : ℕ}
    (hi : i < k) : (s.rxTail + i) % rxLen ≠ s.head := by
  intro heq
  have hdd := h.completed i hi
  rw [heq, hopen] at hdd
  cases hdd

theorem Pending.complete (h : Pending s k) (hopen : (s.rxBuffer s.head).dd = false)
    (frame : List UInt8) (eop : Bool) (errors : UInt8) :
    Pending (E1000.complete s frame eop errors) (k + 1) := by
  have hhead := h.head hopen
  have hroom : k < rxLen := by
    by_contra hfull
    obtain rfl : k = rxLen := by
      have := h.le
      omega
    have hfirst := h.completed 0 (by decide)
    rw [Nat.add_zero, ← Nat.add_mod_right, ← hhead, hopen] at hfirst
    cases hfirst
  have hkeep : ∀ i < k, (s.rxTail + i) % rxLen ≠ s.head := fun i hi => h.ne_head hopen hi
  refine ⟨h.tail_lt, hroom, ?_, ?_, ?_, .inl ?_, ?_, Nat.mod_lt _ (by decide)⟩
  · have hwindow : window (E1000.complete s frame eop errors).rxBuffer rxLen s.rxTail k =
        window s.rxBuffer rxLen s.rxTail k :=
      window_congr fun i hi => Function.update_of_ne (hkeep i hi) ..
    have hlast : (E1000.complete s frame eop errors).rxBuffer ((s.rxTail + k) % rxLen) =
        ⟨true, eop, errors, frame⟩ := by
      rw [← hhead]
      exact Function.update_self ..
    show s.good ++ _ = s.passed ++ _
    rw [show (E1000.complete s frame eop errors).rxTail = s.rxTail from rfl, window_concat, hwindow,
      hlast, List.filterMap_append, ← List.append_assoc, ← h.good_eq]
    cases hd : RxDescriptor.deliverable ⟨true, eop, errors, frame⟩ <;> simp [hd]
  · intro i hi
    rcases Nat.lt_succ_iff_lt_or_eq.mp hi with hi | rfl
    · simp only [E1000.complete, Function.update_of_ne (hkeep i hi)]
      exact h.completed i hi
    · simp only [E1000.complete, ← hhead, Function.update_self]
  · intro j hj hne
    have hj' : j ≠ s.head := hhead ▸ hne k (by omega)
    simp only [E1000.complete, Function.update_of_ne hj']
    exact h.others j hj fun i hi => hne i (by omega)
  · simp only [E1000.complete, hhead, Nat.mod_add_mod, Nat.add_assoc]
  · intro j
    rcases eq_or_ne j s.head with rfl | hj
    · simp [E1000.complete]
    · simpa only [E1000.complete, Function.update_of_ne hj] using h.errors j

theorem RxOwes.complete (h : RxOwes s n g) (hopen : (s.rxBuffer s.head).dd = false)
    (frame : List UInt8) (eop : Bool) (errors : UInt8) :
    RxOwes (E1000.complete s frame eop errors) n g := by
  obtain ⟨⟨k, hn, hpending⟩, hframes⟩ := h
  refine ⟨⟨k + 1, by omega, hpending.complete hopen frame eop errors⟩, ?_⟩
  have hwindow : window (E1000.complete s frame eop errors).rxBuffer rxLen s.rxTail n =
      window s.rxBuffer rxLen s.rxTail n :=
    window_congr fun i hi => Function.update_of_ne (hpending.ne_head hopen (by omega)) ..
  rw [show (E1000.complete s frame eop errors).rxTail = s.rxTail from rfl, hwindow]
  exact hframes

/-- The frames that were passed on and those of the first `n + 1` descriptors are the same when
the first of these has been dealt with. -/
theorem passed_advance {d : RxDescriptor} (htail : s.rxTail < rxLen) (hn : n + 1 ≤ rxLen) :
    (advance { s with
        rxBuffer := Function.update s.rxBuffer s.rxTail d
        passed := s.passed ++ (s.rxBuffer s.rxTail).deliverable.toList }).passed ++
      (window (advance { s with
        rxBuffer := Function.update s.rxBuffer s.rxTail d
        passed := s.passed ++ (s.rxBuffer s.rxTail).deliverable.toList }).rxBuffer rxLen
          ((s.rxTail + 1) % rxLen) n).filterMap RxDescriptor.deliverable =
    s.passed ++ (window s.rxBuffer rxLen s.rxTail (n + 1)).filterMap RxDescriptor.deliverable := by
  have hwindow : window (Function.update s.rxBuffer s.rxTail d) rxLen ((s.rxTail + 1) % rxLen) n =
      window s.rxBuffer rxLen ((s.rxTail + 1) % rxLen) n := by
    refine window_congr fun i hi => Function.update_of_ne ?_ ..
    intro heq
    have hslot := slot_ne (t := s.rxTail) (Nat.succ_pos i) (show i + 1 < 0 + rxLen by omega)
    rw [Nat.mod_add_mod, Nat.add_assoc, Nat.add_comm 1] at heq
    rw [heq, Nat.add_zero, Nat.mod_eq_of_lt htail] at hslot
    exact hslot rfl
  dsimp only [E1000.advance]
  rw [hwindow, window_cons htail, List.filterMap_cons, List.append_assoc]
  cases (s.rxBuffer s.rxTail).deliverable <;> simp

/-- What is pending behind the tail, when the descriptor at the tail has been dealt with. -/
theorem Pending.advance (h : Pending s (k + 1)) {d : RxDescriptor} (hd : d.deliverable = none)
    (herrors : d.errors ≠ 0 → d.dd = true) :
    Pending (advance { s with
      rxBuffer := Function.update s.rxBuffer s.rxTail d
      passed := s.passed ++ (s.rxBuffer s.rxTail).deliverable.toList }) k := by
  have hslot : ∀ i, ((s.rxTail + 1) % rxLen + i) % rxLen = (s.rxTail + (i + 1)) % rxLen := by
    intro i
    rw [Nat.mod_add_mod, Nat.add_assoc, Nat.add_comm 1]
  have htail : s.rxTail = (s.rxTail + 0) % rxLen := (Nat.mod_eq_of_lt h.tail_lt).symm
  have hle := h.le
  have hkeep : ∀ i < k, (s.rxTail + (i + 1)) % rxLen ≠ s.rxTail := by
    intro i hi heq
    rw [htail, Nat.mod_add_mod, Nat.add_zero] at heq
    exact slot_ne (t := s.rxTail) (Nat.succ_pos i) (by omega) heq.symm
  refine ⟨Nat.mod_lt _ (by decide), by omega, ?_, ?_, ?_, ?_, ?_, h.head_lt⟩
  · exact h.good_eq.trans (passed_advance h.tail_lt hle).symm
  · intro i hi
    dsimp only [E1000.advance]
    rw [hslot, Function.update_of_ne (hkeep i hi)]
    exact h.completed (i + 1) (by omega)
  · intro j hj hne
    dsimp only [E1000.advance] at hne ⊢
    rcases eq_or_ne j s.rxTail with rfl | hj'
    · rw [Function.update_self, hd]
    · rw [Function.update_of_ne hj']
      refine h.others j hj fun i hi => ?_
      cases i with
      | zero => exact htail ▸ hj'
      | succ i => exact hslot i ▸ hne i (by omega)
  · dsimp only [E1000.advance]
    rw [hslot]
    exact h.head_eq.imp id fun hk => absurd hk.1 (by omega)
  · intro j
    dsimp only [E1000.advance]
    rcases eq_or_ne j s.rxTail with rfl | hj
    · rwa [Function.update_self]
    · rw [Function.update_of_ne hj]
      exact h.errors j

/-- The driver runs past a descriptor that it left uncleared a turn ago. -/
theorem Pending.overtake (h : Pending s 0) (hdd : (s.rxBuffer s.rxTail).dd = true) :
    Pending (E1000.advance s) 0 := by
  refine ⟨Nat.mod_lt _ (by decide), h.le, h.good_eq, fun i hi => absurd hi (Nat.not_lt_zero i),
    fun j hj _ => h.others j hj fun i hi => absurd hi (Nat.not_lt_zero i), .inr ⟨rfl, ?_⟩,
    h.errors, h.head_lt⟩
  rcases h.head_eq with hhead | ⟨-, hhead⟩
  · rw [Nat.add_zero, Nat.mod_eq_of_lt h.tail_lt] at hhead
    simpa only [E1000.advance, hhead] using hdd
  · exact hhead

/-- The driver goes past a descriptor that it does not pass on. -/
theorem Pending.skip (h : Pending s k) (hdd : (s.rxBuffer s.rxTail).dd = true)
    (hnone : (s.rxBuffer s.rxTail).deliverable = none) : Pending (E1000.advance s) (k - 1) := by
  cases k with
  | zero => exact h.overtake hdd
  | succ k =>
    have hadvance := h.advance hnone (h.errors s.rxTail)
    rwa [hnone, Function.update_eq_self, Option.toList_none, List.append_nil] at hadvance

theorem RxOwes.skip (h : RxOwes s n g) (hdd : (s.rxBuffer s.rxTail).dd = true)
    (hnone : (s.rxBuffer s.rxTail).deliverable = none) : RxOwes (E1000.advance s) (n - 1) g := by
  obtain ⟨⟨k, hn, hpending⟩, hframes⟩ := h
  refine ⟨⟨k - 1, by omega, hpending.skip hdd hnone⟩, ?_⟩
  cases n with
  | zero => exact hframes
  | succ n =>
    have hle := hpending.le
    have hsame := passed_advance (d := s.rxBuffer s.rxTail) hpending.tail_lt (n := n) (by omega)
    rw [hnone, Function.update_eq_self, Option.toList_none, List.append_nil] at hsame
    rwa [← hsame] at hframes

/-- The driver passes the frame of the first pending descriptor on, and leaves `d` there. -/
theorem Pending.deliver (h : Pending s k) {frame : List UInt8} {d : RxDescriptor}
    (hsome : (s.rxBuffer s.rxTail).deliverable = some frame) (hd : d.deliverable = none)
    (herrors : d.errors = 0) : ∃ l, k = l + 1 ∧ Pending (E1000.advance { s with
      rxBuffer := Function.update s.rxBuffer s.rxTail d, passed := s.passed ++ [frame] }) l := by
  cases k with
  | zero =>
    have hother := h.others s.rxTail h.tail_lt fun i hi => absurd hi (Nat.not_lt_zero i)
    rw [hsome] at hother
    cases hother
  | succ l =>
    have hadvance := h.advance hd fun hne => absurd herrors hne
    rw [hsome] at hadvance
    exact ⟨l, rfl, hadvance⟩

theorem RxOwes.deliver (h : RxOwes s n g) {frame : List UInt8} {d : RxDescriptor}
    (hsome : (s.rxBuffer s.rxTail).deliverable = some frame) (hd : d.deliverable = none)
    (herrors : d.errors = 0) : RxOwes (E1000.advance { s with
      rxBuffer := Function.update s.rxBuffer s.rxTail d, passed := s.passed ++ [frame] }) (n - 1) g := by
  obtain ⟨⟨k, hn, hpending⟩, hframes⟩ := h
  obtain ⟨l, rfl, hadvance⟩ := hpending.deliver hsome hd herrors
  refine ⟨⟨l, by omega, hadvance⟩, ?_⟩
  cases n with
  | zero =>
    rw [window_zero, List.filterMap_nil, List.append_nil] at hframes
    rw [window_zero, List.filterMap_nil, List.append_nil]
    exact hframes.trans (List.prefix_append _ _)
  | succ n =>
    have hle := hpending.le
    have hsame := passed_advance (d := d) hpending.tail_lt (n := n) (by omega)
    rw [hsome] at hsame
    rwa [← hsame] at hframes

/-- Nothing is pending when the descriptor at the tail is not completed. -/
theorem Pending.eq_zero (h : Pending s k) (hdd : (s.rxBuffer s.rxTail).dd = false) : k = 0 := by
  by_contra hk
  have hfirst := h.completed 0 (Nat.pos_of_ne_zero hk)
  rw [Nat.add_zero, Nat.mod_eq_of_lt h.tail_lt, hdd] at hfirst
  cases hfirst

end Pending

/-! ### The descriptor that is given back too early -/

/-- The descriptor at the tail as it was before its status was cleared. -/
def putBack (s : Ring) : Ring :=
  { s with
    rxBuffer := Function.update s.rxBuffer s.rxTail
      { s.rxBuffer s.rxTail with dd := true, eop := true } }

/-- The ring with the descriptor that the driver has cleared and not yet passed on put back. -/
def Reader.whole (x : Reader) : Ring :=
  match x.point with
  | .header | .process _ => putBack x.ring
  | _ => x.ring

/-- What the driver knows of the descriptor `d` at its tail. -/
def ReadPoint.Knows (d : RxDescriptor) : ReadPoint → Prop
  | .idle | .errors => True
  | .status => d.errors = 0
  | .clear => d.dd = true ∧ d.eop = true ∧ d.errors = 0
  | .header => d.dd = false ∧ d.errors = 0
  | .process copied => (d.dd = false ∧ d.errors = 0) ∧ copied = d.frame.take ethernetHeaderSize

def Reader.Knows (x : Reader) : Prop := x.point.Knows (x.ring.rxBuffer x.ring.rxTail)

/-- What a step of the driver makes of the whole ring, and the number of descriptors it has dealt
with: nothing; or the tail goes past a completed descriptor that is not passed on; or its frame is
passed on. -/
inductive Dealt (s : Ring) : ℕ → Ring → Prop
  | nothing : Dealt s 0 s
  | skipped (hdd : (s.rxBuffer s.rxTail).dd = true)
      (hnone : (s.rxBuffer s.rxTail).deliverable = none) : Dealt s 1 (advance s)
  | delivered {frame : List UInt8} {d : RxDescriptor}
      (hsome : (s.rxBuffer s.rxTail).deliverable = some frame) (hd : d.deliverable = none)
      (herrors : d.errors = 0) : Dealt s 1 (advance { s with
        rxBuffer := Function.update s.rxBuffer s.rxTail d, passed := s.passed ++ [frame] })

/-- The accesses of the driver until it has dealt with `n` descriptors. -/
def ReadPoint.left (n : ℕ) : ReadPoint → ℕ
  | .idle => 5 * n + 1
  | .errors => 5 * n
  | .status => 5 * n - 1
  | .clear => 5 * n - 2
  | .header => 5 * n - 3
  | .process _ => 5 * n - 4

section Reader
variable {x x' : Reader} {k n : ℕ} {g : List (List UInt8)} {o : RingOp}

theorem Pending.dealt {s t : Ring} {j : ℕ} (h : Pending s k) (hd : Dealt s j t) :
    ∃ l, Pending t l := by
  cases hd with
  | nothing => exact ⟨k, h⟩
  | skipped hdd hnone => exact ⟨k - 1, h.skip hdd hnone⟩
  | delivered hsome hd herrors =>
    obtain ⟨l, -, hl⟩ := h.deliver hsome hd herrors
    exact ⟨l, hl⟩

theorem RxOwes.dealt {s t : Ring} {j : ℕ} (h : RxOwes s n g) (hd : Dealt s j t) :
    RxOwes t (n - j) g := by
  cases hd with
  | nothing => exact h
  | skipped hdd hnone => exact h.skip hdd hnone
  | delivered hsome hd herrors => exact h.deliver hsome hd herrors

theorem deliverable_of_errors {d : RxDescriptor} (h : d.errors ≠ 0) : d.deliverable = none :=
  if_neg fun hd => h hd.2.2

theorem deliverable_of_eop {d : RxDescriptor} (h : d.eop = false) : d.deliverable = none :=
  if_neg fun hd => by simp [h] at hd

theorem deliverable_of_dd {d : RxDescriptor} (h : d.dd = false) : d.deliverable = none :=
  if_neg fun hd => by simp [h] at hd

theorem RxDescriptor.eq_of_done {d : RxDescriptor} (hdd : d.dd = true) (heop : d.eop = true) :
    { d with dd := true, eop := true } = d := by
  cases d
  simp_all

theorem putBack_clearStatus {s : Ring} (hdd : (s.rxBuffer s.rxTail).dd = true)
    (heop : (s.rxBuffer s.rxTail).eop = true) : putBack (clearStatus s) = s := by
  have hput : { s.rxBuffer s.rxTail with dd := true, eop := true } = s.rxBuffer s.rxTail :=
    RxDescriptor.eq_of_done hdd heop
  simp [putBack, clearStatus, hput]

/-- The frame of the descriptor that has been given back is passed on as it was. -/
theorem Dealt.process {s : Ring} {header : List UInt8}
    (hdd : (s.rxBuffer s.rxTail).dd = false) (herr : (s.rxBuffer s.rxTail).errors = 0)
    (hheader : header = (s.rxBuffer s.rxTail).frame.take ethernetHeaderSize) :
    Dealt (putBack s) 1 (e1000ReadStep ⟨s, .process header⟩).whole := by
  have hframe : ((putBack s).rxBuffer s.rxTail).deliverable =
      some (s.rxBuffer s.rxTail).frame := by
    simp [putBack, RxDescriptor.deliverable, herr]
  have hd := Dealt.delivered hframe (deliverable_of_dd hdd) herr
  simpa [e1000ReadStep, Reader.whole, putBack, hheader] using hd

/-- A step of the driver, on the whole ring; unless the call ends, fewer accesses are left. -/
theorem Reader.Knows.read (h : x.Knows)
    (herrors : ∀ j, (x.whole.rxBuffer j).errors ≠ 0 → (x.whole.rxBuffer j).dd = true) :
    (e1000ReadStep x).Knows ∧ ∃ j, Dealt x.whole j (e1000ReadStep x).whole ∧
      ((e1000ReadStep x).point = .idle ∨
        ∀ n, 0 < n → (e1000ReadStep x).point.left (n - j) < x.point.left n) := by
  obtain ⟨s, point⟩ := x
  cases point with
  | idle => exact ⟨trivial, 0, .nothing, .inr fun n hn => Nat.lt_succ_self _⟩
  | errors =>
    simp only [e1000ReadStep]
    split_ifs with he
    · refine ⟨trivial, 1, .skipped (herrors _ he) (deliverable_of_errors he), .inr ?_⟩
      intro n hn
      simp only [ReadPoint.left]
      omega
    · refine ⟨not_not.mp he, 0, .nothing, .inr ?_⟩
      intro n hn
      simp only [ReadPoint.left]
      omega
  | status =>
    simp only [e1000ReadStep]
    split_ifs with hdd heop
    · refine ⟨trivial, 1, .skipped hdd (deliverable_of_eop (Bool.not_eq_true' _ ▸ heop)), .inr ?_⟩
      intro n hn
      simp only [ReadPoint.left]
      omega
    · refine ⟨⟨hdd, by simpa using heop, h⟩, 0, .nothing, .inr ?_⟩
      intro n hn
      simp only [ReadPoint.left]
      omega
    · exact ⟨trivial, 0, .nothing, .inl rfl⟩
  | clear =>
    obtain ⟨hdd, heop, herr⟩ :
      (s.rxBuffer s.rxTail).dd = true ∧ (s.rxBuffer s.rxTail).eop = true ∧
        (s.rxBuffer s.rxTail).errors = 0 := h
    have hwhole : (e1000ReadStep ⟨s, .clear⟩).whole = s := putBack_clearStatus hdd heop
    refine ⟨by simp [e1000ReadStep, Reader.Knows, ReadPoint.Knows, clearStatus, herr], 0, ?_,
      .inr ?_⟩
    · rw [hwhole]
      exact .nothing
    · intro n hn
      simp only [e1000ReadStep, ReadPoint.left]
      omega
  | header =>
    refine ⟨⟨h, rfl⟩, 0, .nothing, .inr ?_⟩
    intro n hn
    simp only [e1000ReadStep, ReadPoint.left]
    omega
  | process header =>
    obtain ⟨⟨hdd, herr⟩, hheader⟩ :
      ((s.rxBuffer s.rxTail).dd = false ∧ (s.rxBuffer s.rxTail).errors = 0) ∧
        header = (s.rxBuffer s.rxTail).frame.take ethernetHeaderSize := h
    refine ⟨trivial, 1, .process hdd herr hheader, .inr ?_⟩
    intro n hn
    simp only [e1000ReadStep, ReadPoint.left]
    omega

/-- A call ends at a descriptor that is not completed. -/
theorem e1000ReadStep_idle (h : (e1000ReadStep x).point = .idle) :
    x.whole = x.ring ∧ (x.ring.rxBuffer x.ring.rxTail).dd = false := by
  obtain ⟨s, point⟩ := x
  cases point with
  | status =>
    simp only [e1000ReadStep] at h
    split_ifs at h with hdd
    exact ⟨rfl, by simpa using hdd⟩
  | errors =>
    simp only [e1000ReadStep] at h
    split_ifs at h
  | _ => cases h

/-- The card fills another descriptor than the one put back. -/
theorem putBack_complete {s : Ring} (hne : s.head ≠ s.rxTail) (frame : List UInt8) (eop : Bool)
    (errors : UInt8) :
    putBack (E1000.complete s frame eop errors) = E1000.complete (putBack s) frame eop errors := by
  simp [putBack, E1000.complete, Function.update_of_ne hne.symm, Function.update_comm hne]

/-- A completion by the card, on the whole ring. -/
theorem Reader.Knows.complete (h : x.Knows) {frame : List UInt8} {eop : Bool} {errors : UInt8}
    (hc : RxAllowed x (.complete frame eop errors)) :
    Reader.Knows ⟨E1000.complete x.ring frame eop errors, x.point⟩ ∧
      (x.whole.rxBuffer x.whole.head).dd = false ∧
      Reader.whole ⟨E1000.complete x.ring frame eop errors, x.point⟩ =
        E1000.complete x.whole frame eop errors := by
  obtain ⟨hopen, hkeep⟩ := hc
  obtain ⟨s, point⟩ := x
  have hopen' : (s.rxBuffer s.head).dd = false := hopen
  have hother (hne : s.head ≠ s.rxTail) :
      (E1000.complete s frame eop errors).rxBuffer s.rxTail = s.rxBuffer s.rxTail :=
    Function.update_of_ne hne.symm ..
  have hkept (hne : s.head ≠ s.rxTail) :
      Reader.Knows ⟨E1000.complete s frame eop errors, point⟩ := by
    show point.Knows ((E1000.complete s frame eop errors).rxBuffer s.rxTail)
    rw [hother hne]
    exact h
  cases point with
  | idle => exact ⟨trivial, hopen, rfl⟩
  | errors => exact ⟨trivial, hopen, rfl⟩
  | status =>
    refine ⟨?_, hopen, rfl⟩
    rcases eq_or_ne s.head s.rxTail with heq | hne
    · show ((E1000.complete s frame eop errors).rxBuffer s.rxTail).errors = 0
      simp only [E1000.complete, heq, Function.update_self]
      exact hkeep heq
    · exact hkept hne
  | clear =>
    refine ⟨hkept ?_, hopen, rfl⟩
    intro heq
    have hdd : (s.rxBuffer s.rxTail).dd = true := h.1
    rw [← heq, hopen'] at hdd
    cases hdd
  | header =>
    have hne : s.head ≠ s.rxTail := hkeep
    exact ⟨hkept hne, by simpa [Reader.whole, putBack, hne] using hopen',
      putBack_complete hne frame eop errors⟩
  | process header =>
    have hne : s.head ≠ s.rxTail := hkeep
    exact ⟨hkept hne, by simpa [Reader.whole, putBack, hne] using hopen',
      putBack_complete hne frame eop errors⟩

/-- What holds after every step, and what the step makes of the frames that are owed. -/
def Reader.Sound (x : Reader) : Prop := x.Knows ∧ ∃ k, Pending x.whole k

theorem Reader.Sound.step (h : x.Sound) (hc : RxAllowed x o) (hs : x.step o = some x') :
    x'.Sound := by
  obtain ⟨hknows, k, hpending⟩ := h
  cases o with
  | complete frame eop errors =>
    obtain rfl := Option.some.inj hs
    obtain ⟨hknows', hopen, hwhole⟩ := hknows.complete hc
    refine ⟨hknows', k + 1, ?_⟩
    rw [hwhole]
    exact hpending.complete hopen frame eop errors
  | read =>
    obtain rfl := Option.some.inj hs
    obtain ⟨hknows', j, hdealt, -⟩ := hknows.read hpending.errors
    exact ⟨hknows', hpending.dealt hdealt⟩

theorem Reader.whole_passed (x : Reader) : x.whole.passed = x.ring.passed := by
  obtain ⟨s, point⟩ := x
  cases point <;> rfl

theorem Reader.whole_good (x : Reader) : x.whole.good = x.ring.good := by
  obtain ⟨s, point⟩ := x
  cases point <;> rfl

/-- The frames of the first `n` pending descriptors have been passed on after as many accesses of
the driver as are left. -/
theorem RxOwes.run {os : List RingOp} (hrun : Run Reader.step RxAllowed x os x') (hknows : x.Knows)
    (h : RxOwes x.whole n g) (hleft : n = 0 ∨ x.point.left n ≤ os.countP RingOp.isRead) :
    g <+: x'.ring.passed := by
  induction hrun generalizing n with
  | nil x =>
    obtain rfl : n = 0 := by
      rcases hleft with hn | hleft
      · exact hn
      · by_contra hn
        rw [List.countP_nil] at hleft
        cases hp : x.point <;> simp only [hp, ReadPoint.left] at hleft <;> omega
    rw [← x.whole_passed]
    simpa using h.frames
  | @cons x y z o os hc hs _ ih =>
    cases o with
    | complete frame eop errors =>
      obtain rfl := Option.some.inj hs
      obtain ⟨hknows', hopen, hwhole⟩ := hknows.complete hc
      refine ih hknows' ?_ (by simpa [RingOp.isRead] using hleft)
      rw [hwhole]
      exact h.complete hopen frame eop errors
    | read =>
      obtain rfl := Option.some.inj hs
      obtain ⟨k, hn, hpending⟩ := h.le
      obtain ⟨hknows', j, hdealt, hnext⟩ := hknows.read hpending.errors
      refine ih hknows' (h.dealt hdealt) ?_
      rcases hleft with rfl | hleft
      · exact .inl (Nat.zero_sub j)
      rcases Nat.eq_zero_or_pos n with rfl | hpos
      · exact .inl (Nat.zero_sub j)
      rcases hnext with hidle | hless
      · -- nothing was pending
        obtain ⟨hwhole, hdd⟩ := e1000ReadStep_idle hidle
        rw [← hwhole] at hdd
        have := hpending.eq_zero hdd
        omega
      · rw [List.countP_cons_of_pos rfl] at hleft
        have := hless n hpos
        exact .inr (by omega)

/-- As long as the card does not fill the descriptor that the driver has cleared and still reads,
the frames passed on are a prefix of the good ones, in the order of arrival; all of them when a
call ends, and those that were there once the driver has gone on for a turn of the ring. -/
theorem rx_exactly_once {os : List RingOp} (h : Run Reader.step RxAllowed receiveInit os x) :
    x.ring.passed <+: x.ring.good ∧
      ((e1000ReadStep x).point = .idle → x.ring.passed = x.ring.good) ∧
      ∀ {os' : List RingOp} {x' : Reader}, Run Reader.step RxAllowed x os' x' →
        5 * rxLen + 1 ≤ os'.countP RingOp.isRead → x.ring.good <+: x'.ring.passed := by
  obtain ⟨hknows, k, hpending⟩ : x.Sound :=
    h.invariant (fun _ _ _ hx hc hs => hx.step hc hs) ⟨trivial, 0, pending_init⟩
  have hgood := hpending.good_eq
  rw [x.whole_good, x.whole_passed] at hgood
  refine ⟨⟨_, hgood.symm⟩, fun hidle => ?_, fun {os' x'} hrun hreads => ?_⟩
  · obtain ⟨hwhole, hdd⟩ := e1000ReadStep_idle hidle
    rw [← hwhole] at hdd
    obtain rfl := hpending.eq_zero hdd
    simpa using hgood.symm
  · have howes : RxOwes x.whole k x.ring.good := by
      refine ⟨⟨k, le_rfl, hpending⟩, ?_⟩
      rw [x.whole_passed, ← hgood]
    refine howes.run hrun hknows (.inr (le_trans ?_ hreads))
    have := hpending.le
    cases x.point <;> simp only [ReadPoint.left] <;> omega

end Reader

/-- A frame with an error and a good one, which the driver passes on. -/
theorem rx_exactly_once_two : ∃ x, Run Reader.step RxAllowed receiveInit
      [.complete [1] true 4, .read, .complete [2] true 0, .read, .read, .read, .read, .read, .read,
        .read] x ∧
    x.point = .status ∧ x.ring.passed = [[2]] ∧ x.ring.passed = x.ring.good := by
  have hrun : Run Reader.step RxAllowed receiveInit
      [.complete [1] true 4, .read, .complete [2] true 0, .read, .read, .read, .read, .read, .read,
        .read] _ := .of_checked rfl
  exact ⟨_, hrun, rfl, by decide, (rx_exactly_once hrun).2.1 rfl⟩

/-! ### A ring that is full -/

/-- Where the card waits at the tail of the driver, it fills the descriptor there between the
clearing of its status and the reading of its frame: the frame that was there is not passed on. -/
theorem lost_when_full {s : Ring} {frame : List UInt8} (hhead : s.head = s.rxTail)
    (hfull : s.rxBuffer s.rxTail = ⟨true, true, 0, frame⟩) (later : List UInt8) :
    ∃ x, Run Reader.step FillsOpen ⟨s, .idle⟩
        [.read, .read, .read, .read, .complete later true 0, .read, .read] x ∧
      x.ring.passed = s.passed ++ [later] ∧ x.ring.good = s.good ++ [later] := by
  have herrors : e1000ReadStep ⟨s, .errors⟩ = ⟨s, .status⟩ := by simp [e1000ReadStep, hfull]
  have hstatus : e1000ReadStep ⟨s, .status⟩ = ⟨s, .clear⟩ := by simp [e1000ReadStep, hfull]
  have hopen : FillsOpen ⟨clearStatus s, .header⟩ (.complete later true 0) := by
    simp [FillsOpen, clearStatus, hhead]
  have hrun : Run Reader.step FillsOpen ⟨s, .idle⟩
      [.read, .read, .read, .read, .complete later true 0, .read, .read] _ :=
    .cons trivial rfl <| .cons trivial (congrArg some herrors) <|
      .cons trivial (congrArg some hstatus) <| .cons trivial rfl <| .cons hopen rfl <|
      .cons trivial rfl <| .cons trivial rfl (.nil _)
  refine ⟨_, hrun, ?_, rfl⟩
  simp [e1000ReadStep, E1000.complete, clearStatus, advance, hhead]

/-- The ring when the card has completed `n` descriptors and the driver none. -/
def filled : ℕ → Ring
  | 0 => receiveInit.ring
  | n + 1 => complete (filled n) [1] true 0

theorem filled_spec (n : ℕ) : (filled n).rxTail = 0 ∧ (filled n).head = n % rxLen ∧
    (filled n).passed = [] ∧ (filled n).good = List.replicate n [1] := by
  induction n with
  | zero => exact ⟨rfl, rfl, rfl, rfl⟩
  | succ n ih =>
    obtain ⟨htail, hhead, hpassed, hgood⟩ := ih
    refine ⟨htail, ?_, hpassed, ?_⟩
    · simp [filled, complete, hhead]
    · simp [filled, complete, hgood, RxDescriptor.deliverable, List.replicate_succ']

theorem filled_rxBuffer {n : ℕ} (hn : n ≤ rxLen) (j : ℕ) :
    (filled n).rxBuffer j = if j < n then ⟨true, true, 0, [1]⟩ else ⟨false, false, 0, []⟩ := by
  induction n with
  | zero => rfl
  | succ n ih =>
    have hhead : (filled n).head = n := by
      rw [(filled_spec n).2.1, Nat.mod_eq_of_lt (by omega)]
    rcases eq_or_ne j n with rfl | hne
    · simp [filled, complete, hhead]
    · have hiff : j < n + 1 ↔ j < n := by omega
      simp only [filled, complete, hhead, Function.update_of_ne hne, hiff]
      exact ih (by omega)

theorem filled_run {n : ℕ} (hn : n ≤ rxLen) : Run Reader.step FillsOpen receiveInit
    (List.replicate n (.complete [1] true 0)) ⟨filled n, .idle⟩ := by
  induction n with
  | zero => exact .nil _
  | succ n ih =>
    rw [List.replicate_succ']
    refine (ih (by omega)).trans (.single ?_ rfl)
    show ((filled n).rxBuffer (filled n).head).dd = false
    rw [(filled_spec n).2.1, Nat.mod_eq_of_lt (by omega), filled_rxBuffer (by omega),
      if_neg (lt_irrefl n)]

/-- The card fills the ring; the driver is called and has cleared the first status when the card
fills that descriptor again. The first frame passed on is the last one that arrived. -/
theorem rx_loses_frame : ∃ os x, Run Reader.step FillsOpen receiveInit os x ∧
    ¬ x.ring.passed <+: x.ring.good := by
  obtain ⟨htail, hhead, hpassed, hgood⟩ := filled_spec rxLen
  have hfull : (filled rxLen).rxBuffer (filled rxLen).rxTail = ⟨true, true, 0, [1]⟩ := by
    rw [htail, filled_rxBuffer le_rfl, if_pos (by decide)]
  obtain ⟨x, hrun, hlast, hlist⟩ := lost_when_full (hhead.trans htail.symm) hfull [2]
  refine ⟨_, x, (filled_run le_rfl).trans hrun, ?_⟩
  rw [hlast, hlist, hpassed, hgood, rxLen, List.replicate_succ, List.nil_append, List.cons_append,
    List.cons_prefix_cons]
  rintro ⟨heq, -⟩
  exact absurd heq (by decide)

end DosKernel.E1000
