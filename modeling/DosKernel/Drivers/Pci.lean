import DosKernel.Lib.Forest
import DosKernel.Lib.Listing

/-! The scan of the PCI configuration space. A bus is scanned device by device, and a
bridge starts the scan of its secondary bus. The configuration space does not change
meanwhile. -/

namespace DosKernel.Pci

open Lib

abbrev Bus := Fin 256

/-- The fields of `pci_header` that the scan reads, and `secondary_bus` of a bridge. -/
structure PciHeader where
  vendor : ℕ
  classCode : ℕ
  subclass : ℕ
  multiFunc : Bool
  secondaryBus : Bus

structure Location where
  bus : Bus
  device : ℕ
  func : ℕ
  deriving DecidableEq

abbrev Config := Location → PciHeader

/-! ### The code -/

def pciCheckFunction (checkBus : Bus → Option (List Location)) (header : PciHeader) :
    Option (List Location) :=
  if header.classCode = 0x06 ∧ header.subclass = 0x04 then checkBus header.secondaryBus else some []

/-- The body of the loop over the functions 1 to 7 in `pci_check_device`. -/
def pciCheckNext (checkBus : Bus → Option (List Location)) (c : Config) (bus : Bus)
    (device func : ℕ) : Option (List Location) :=
  let header := c ⟨bus, device, func⟩
  if header.vendor ≠ 0xFFFF then
    both (some [⟨bus, device, func⟩]) (pciCheckFunction checkBus header)
  else some []

/-- `pci_check_device`: the functions for which it calls `pci_device_found`. -/
def pciCheckDevice (checkBus : Bus → Option (List Location)) (c : Config) (bus : Bus)
    (device : ℕ) : Option (List Location) :=
  let header := c ⟨bus, device, 0⟩
  if header.vendor = 0xFFFF then some []
  else
    both (pciCheckFunction checkBus header)
      (if header.multiFunc then each (List.range' 1 7) (pciCheckNext checkBus c bus device)
      else some [⟨bus, device, 0⟩])

/-- `pci_check_bus`; `none` when the bridges lead on without end. -/
def pciCheckBus (c : Config) : (fuel : ℕ) → Bus → Option (List Location)
  | 0, _ => none
  | fuel + 1, bus => each (List.range 32) (pciCheckDevice (pciCheckBus c fuel) c bus)

/-- The loop of `pci_discover_devices` over the functions of device 0:0. -/
def pciCheckHosts (c : Config) : (left func : ℕ) → Option (List Location)
  | 0, _ => some []
  | left + 1, func =>
    if (c ⟨0, 0, func⟩).vendor ≠ 0xFFFF then some []
    else both (pciCheckBus c 256 (Fin.ofNat 256 func)) (pciCheckHosts c left (func + 1))

/-- `pci_discover_devices`. There are 256 buses, and a chain of bridges that is longer comes
back to one of them. -/
def pciDiscoverDevices (c : Config) : Option (List Location) :=
  if !(c ⟨0, 0, 0⟩).multiFunc then pciCheckBus c 256 0 else pciCheckHosts c 8 0

/-! ### The tree of buses -/

/-- The function is there, in a device whose function 0 is there. -/
def Present (c : Config) (x : Location) : Prop :=
  x.device < 32 ∧ x.func < 8 ∧ (c x).vendor ≠ 0xFFFF ∧ (c ⟨x.bus, x.device, 0⟩).vendor ≠ 0xFFFF

def Bridge (c : Config) (x : Location) : Prop :=
  Present c x ∧ (c x).classCode = 0x06 ∧ (c x).subclass = 0x04

/-- A bridge on the bus `b` leads to the bus `t`. -/
def Child (c : Config) (b t : Bus) : Prop := ∃ x, Bridge c x ∧ x.bus = b ∧ (c x).secondaryBus = t

/-- Device 0:0 is there and has several functions. -/
def HostMulti (c : Config) : Prop :=
  (c ⟨0, 0, 0⟩).vendor ≠ 0xFFFF ∧ (c ⟨0, 0, 0⟩).multiFunc = true

/-- The host bus 0, or the buses of the host functions of device 0:0. -/
def Root (c : Config) (b : Bus) : Prop :=
  HostMulti c ∧ b.val < 8 ∧ (c ⟨0, 0, b⟩).vendor ≠ 0xFFFF ∨ ¬ HostMulti c ∧ b = 0

def Reachable (c : Config) (b : Bus) : Prop := ∃ n, Depth (Child c) (Root c) n b

/-- The bridges form a tree below the roots. -/
structure BridgeTree (c : Config) : Prop where
  reachable : ∀ x, Bridge c x → Reachable c x.bus
  parent_unique : ∀ x y, Bridge c x → Bridge c y → (c x).secondaryBus = (c y).secondaryBus → x = y
  root_parent : ∀ x, Bridge c x → ¬ Root c (c x).secondaryBus

/-- The scan ends and finds every present function on a reachable bus exactly once. -/
def Enumerates (c : Config) : Prop :=
  ∃ log, pciDiscoverDevices c = some log ∧
    ∀ x, Present c x → Reachable c x.bus → log.count x = 1

/-- The devices on reachable buses have one function, and nothing shows at the others. -/
def SingleFunctions (c : Config) : Prop :=
  ∀ x, Present c x → Reachable c x.bus → x.func = 0 ∧ (c x).multiFunc = false

/-- Device 0:0 is missing but reads as if it had several functions, and all functions up to
the number of the bus are missing: the loop over the hosts scans the bus. -/
def Rescanned (c : Config) (b : Bus) : Prop :=
  1 ≤ b.val ∧ b.val < 8 ∧ (c ⟨0, 0, 0⟩).multiFunc = true ∧
    ∀ func ≤ b.val, (c ⟨0, 0, func⟩).vendor = 0xFFFF

section Tree
variable {c : Config} {b : Bus} {x : Location}

theorem BridgeTree.forest (h : BridgeTree c) : Forest (Child c) (Root c) := by
  refine ⟨?_, ?_⟩
  · rintro a b t ⟨x, hx, rfl, hxt⟩ ⟨y, hy, rfl, hyt⟩
    rw [h.parent_unique x y hx hy (hxt.trans hyt.symm)]
  · rintro a t ⟨x, hx, -, rfl⟩
    exact h.root_parent x hx

theorem Present.zero (h : Present c x) : Present c ⟨x.bus, x.device, 0⟩ :=
  ⟨h.1, Nat.succ_pos 7, h.2.2.2, h.2.2.2⟩

theorem SingleFunctions.eq_zero (h : SingleFunctions c) (hx : Present c x)
    (hr : Reachable c x.bus) : x = ⟨x.bus, x.device, 0⟩ := by
  obtain ⟨hfunc, -⟩ := h x hx hr
  cases x
  exact congrArg _ hfunc

/-! ### What is found -/

/-- Function 0 of a device with one function, or another function of one with several. -/
def Found (c : Config) (x : Location) : Prop :=
  x.func = 0 ∧ (c x).multiFunc = false ∨
    x.func ≠ 0 ∧ (c ⟨x.bus, x.device, 0⟩).multiFunc = true

theorem findsOnly_checkFunction {checkBus : Bus → Option (List Location)} {P : Location → Prop}
    (hcheck : ∀ b, FindsOnly (checkBus b) P) (header : PciHeader) :
    FindsOnly (pciCheckFunction checkBus header) P := by
  unfold pciCheckFunction
  split_ifs
  · exact hcheck _
  · exact findsOnly_nil

theorem findsOnly_checkBus (fuel : ℕ) : ∀ b, FindsOnly (pciCheckBus c fuel b) (Found c) := by
  induction fuel with
  | zero => intro b xs h; cases h
  | succ fuel ih =>
    intro b
    unfold pciCheckBus
    refine FindsOnly.each fun device _ => ?_
    rw [pciCheckDevice]
    split_ifs with hvendor hmulti
    · exact findsOnly_nil
    · refine (findsOnly_checkFunction ih _).both (FindsOnly.each fun func hfunc => ?_)
      rw [pciCheckNext]
      split_ifs
      · refine (findsOnly_single (.inr ⟨?_, hmulti⟩)).both (findsOnly_checkFunction ih _)
        exact Nat.one_le_iff_ne_zero.mp (List.mem_range'_1.mp hfunc).1
      · exact findsOnly_nil
    · exact (findsOnly_checkFunction ih _).both
        (findsOnly_single (.inl ⟨rfl, Bool.eq_false_of_not_eq_true hmulti⟩))

theorem findsOnly_checkHosts (left : ℕ) : ∀ func, FindsOnly (pciCheckHosts c left func) (Found c) := by
  induction left with
  | zero => intro func; exact findsOnly_nil
  | succ left ih =>
    intro func
    rw [pciCheckHosts]
    split_ifs
    · exact findsOnly_nil
    · exact (findsOnly_checkBus 256 _).both (ih (func + 1))

theorem findsOnly_discover (c : Config) : FindsOnly (pciDiscoverDevices c) (Found c) := by
  unfold pciDiscoverDevices
  split_ifs
  · exact findsOnly_checkBus 256 0
  · exact findsOnly_checkHosts 8 0

/-- A bus without bridges is scanned on its own. -/
theorem checkBus_of_no_bridge (hb : ∀ x, Bridge c x → x.bus ≠ b) (fuel : ℕ) :
    (pciCheckBus c (fuel + 1) b).isSome ∧ FindsOnly (pciCheckBus c (fuel + 1) b) (·.bus = b) := by
  have hfunction : ∀ device < 32, ∀ func < 8, (c ⟨b, device, func⟩).vendor ≠ 0xFFFF →
      (c ⟨b, device, 0⟩).vendor ≠ 0xFFFF →
      pciCheckFunction (pciCheckBus c fuel) (c ⟨b, device, func⟩) = some [] := by
    intro device hdevice func hfunc hvendor hzero
    exact if_neg fun hbridge => hb ⟨b, device, func⟩ ⟨⟨hdevice, hfunc, hvendor, hzero⟩, hbridge⟩ rfl
  have hnext : ∀ device < 32, (c ⟨b, device, 0⟩).vendor ≠ 0xFFFF → ∀ func ∈ List.range' 1 7,
      (pciCheckNext (pciCheckBus c fuel) c b device func).isSome ∧
      FindsOnly (pciCheckNext (pciCheckBus c fuel) c b device func) (·.bus = b) := by
    intro device hdevice hzero func hfunc
    rw [List.mem_range'_1] at hfunc
    rw [pciCheckNext]
    split_ifs with hvendor
    · rw [hfunction device hdevice func (by omega) hvendor hzero]
      have hsingle : FindsOnly (some [Location.mk b device func]) fun x => x.bus = b :=
        findsOnly_single rfl
      exact ⟨rfl, hsingle.both findsOnly_nil⟩
    · exact ⟨rfl, findsOnly_nil⟩
  have hdev : ∀ device ∈ List.range 32,
      (pciCheckDevice (pciCheckBus c fuel) c b device).isSome ∧
      FindsOnly (pciCheckDevice (pciCheckBus c fuel) c b device) (·.bus = b) := by
    intro device hdevice
    rw [List.mem_range] at hdevice
    rw [pciCheckDevice]
    split_ifs with hvendor hmulti
    · exact ⟨rfl, findsOnly_nil⟩
    · rw [hfunction device hdevice 0 (by decide) hvendor hvendor]
      obtain ⟨xs, hxs⟩ := Option.isSome_iff_exists.mp
        (each_isSome fun func hfunc => (hnext device hdevice hvendor func hfunc).1)
      refine ⟨Option.isSome_iff_exists.mpr ⟨xs, both_eq_some.mpr ⟨[], xs, rfl, hxs, rfl⟩⟩, ?_⟩
      exact findsOnly_nil.both (FindsOnly.each fun func hfunc =>
        (hnext device hdevice hvendor func hfunc).2)
    · rw [hfunction device hdevice 0 (by decide) hvendor hvendor]
      exact ⟨rfl, findsOnly_nil.both (findsOnly_single rfl)⟩
  unfold pciCheckBus
  exact ⟨each_isSome fun device hd => (hdev device hd).1,
    FindsOnly.each fun device hd => (hdev device hd).2⟩

/-! ### Buses without multi-function devices -/

/-- The present functions on the bus and on the buses that its bridges lead to. -/
def Below (c : Config) (b : Bus) (x : Location) : Prop :=
  Present c x ∧ ∃ k, Steps (Child c) k b x.bus

/-- Function 0 of the device and, when it is a bridge, what is below the bridge. -/
def InDevice (c : Config) (b : Bus) (device : ℕ) (x : Location) : Prop :=
  Bridge c ⟨b, device, 0⟩ ∧ Below c (c ⟨b, device, 0⟩).secondaryBus x ∨
    Present c ⟨b, device, 0⟩ ∧ x = ⟨b, device, 0⟩

theorem not_below_bridge (htree : BridgeTree c) (hb : Reachable c b) {device : ℕ}
    (hbridge : Bridge c ⟨b, device, 0⟩) (hx : Below c (c ⟨b, device, 0⟩).secondaryBus x) :
    x.bus ≠ b := by
  rintro rfl
  obtain ⟨n, hn⟩ := hb
  obtain ⟨-, k, hk⟩ := hx
  have hround : Steps (Child c) (k + 1) x.bus x.bus := ⟨_, ⟨_, hbridge, rfl, rfl⟩, hk⟩
  exact absurd (htree.forest.steps_self hn hround) (Nat.succ_ne_zero k)

theorem inDevice_unique (htree : BridgeTree c) (hb : Reachable c b) {d e : ℕ}
    (hd : InDevice c b d x) (he : InDevice c b e x) : d = e := by
  rcases hd with ⟨hbd, hd⟩ | ⟨-, rfl⟩
  · rcases he with ⟨hbe, he⟩ | ⟨-, rfl⟩
    · -- the two bridges are above the function at one distance
      obtain ⟨n, hn⟩ := hb
      obtain ⟨-, k, hk⟩ := hd
      obtain ⟨-, m, hm⟩ := he
      have hdepth := htree.forest.depth_unique ((hn.child ⟨_, hbd, rfl, rfl⟩).down hk)
        ((hn.child ⟨_, hbe, rfl, rfl⟩).down hm)
      obtain rfl : k = m := by omega
      have hbus := htree.forest.above_unique hk hm
      have hbridge := htree.parent_unique _ _ hbd hbe hbus
      exact (Location.mk.inj hbridge).2.1
    · exact absurd rfl (not_below_bridge htree hb hbd hd)
  · rcases he with ⟨hbe, he⟩ | ⟨-, heq⟩
    · exact absurd rfl (not_below_bridge htree hb hbe he)
    · exact (Location.mk.inj heq).2.1

theorem checkDevice_lists (htree : BridgeTree c) (hsingle : SingleFunctions c)
    (hb : Reachable c b) {device : ℕ} (hdevice : device < 32)
    {checkBus : Bus → Option (List Location)}
    (hcheck : ∀ t, Child c b t → Lists (checkBus t) (Below c t)) :
    Lists (pciCheckDevice checkBus c b device) (InDevice c b device) := by
  rw [pciCheckDevice]
  by_cases hvendor : (c ⟨b, device, 0⟩).vendor = 0xFFFF
  · rw [if_pos hvendor]
    refine lists_nil fun x hx => ?_
    rcases hx with ⟨hbridge, -⟩ | ⟨hpresent, -⟩
    · exact hbridge.1.2.2.1 hvendor
    · exact hpresent.2.2.1 hvendor
  · have hpresent : Present c ⟨b, device, 0⟩ := ⟨hdevice, Nat.succ_pos 7, hvendor, hvendor⟩
    obtain ⟨-, hmulti⟩ := hsingle _ hpresent hb
    rw [if_neg hvendor, if_neg (by simp [hmulti])]
    have hfunction : Lists (pciCheckFunction checkBus (c ⟨b, device, 0⟩)) fun x =>
        Bridge c ⟨b, device, 0⟩ ∧ Below c (c ⟨b, device, 0⟩).secondaryBus x := by
      unfold pciCheckFunction
      split_ifs with hclass
      · have hbridge : Bridge c ⟨b, device, 0⟩ := ⟨hpresent, hclass⟩
        exact (hcheck _ ⟨_, hbridge, rfl, rfl⟩).congr fun x => (and_iff_right hbridge).symm
      · exact lists_nil fun x hx => hclass hx.1.2
    refine (hfunction.both (lists_single _) ?_).congr fun x => ?_
    · rintro x ⟨hbridge, hx⟩ rfl
      exact not_below_bridge htree hb hbridge hx rfl
    · rw [InDevice, and_iff_right hpresent]

theorem below_iff (hsingle : SingleFunctions c) (hb : Reachable c b) :
    (∃ device ∈ List.range 32, InDevice c b device x) ↔ Below c b x := by
  constructor
  · rintro ⟨device, -, ⟨hbridge, hx, k, hk⟩ | ⟨hpresent, rfl⟩⟩
    · exact ⟨hx, k + 1, _, ⟨_, hbridge, rfl, rfl⟩, hk⟩
    · exact ⟨hpresent, 0, rfl⟩
  · rintro ⟨hx, k, hk⟩
    cases k with
    | zero =>
      obtain rfl := hk
      have heq := hsingle.eq_zero hx hb
      refine ⟨x.device, List.mem_range.mpr hx.1, .inr ⟨?_, heq⟩⟩
      exact hx.zero
    | succ k =>
      obtain ⟨t, ⟨y, hy, rfl, rfl⟩, hk⟩ := hk
      have heq := hsingle.eq_zero hy.1 hb
      rw [heq] at hy hk
      exact ⟨y.device, List.mem_range.mpr hy.1.1, .inl ⟨hy, hx, k, hk⟩⟩

/-- In a tree of buses with single functions the scan of a bus finds what is below it. The
depth of the bus and the fuel together are enough, as no branch has more than 256 buses. -/
theorem checkBus_lists (htree : BridgeTree c) (hsingle : SingleFunctions c) (fuel : ℕ) :
    ∀ n b, Depth (Child c) (Root c) n b → 256 ≤ n + fuel →
      Lists (pciCheckBus c fuel b) (Below c b) := by
  induction fuel with
  | zero =>
    intro n b hn hfuel
    have hlt := htree.forest.depth_lt_card hn
    rw [Fintype.card_fin] at hlt
    omega
  | succ fuel ih =>
    intro n b hn hfuel
    have hb : Reachable c b := ⟨n, hn⟩
    unfold pciCheckBus
    refine (Lists.each List.nodup_range (fun device hdevice => ?_) ?_).congr
      fun x => below_iff hsingle hb
    · rw [List.mem_range] at hdevice
      refine checkDevice_lists htree hsingle hb hdevice fun t ht => ?_
      exact ih (n + 1) t (hn.child ht) (by omega)
    · intro d _ e _ x hd he
      exact inDevice_unique htree hb hd he

/-! ### The loop over the hosts -/

theorem root_of_single (h : ¬ HostMulti c) : Root c b ↔ b = 0 := by
  rw [Root, and_iff_right h, or_iff_right fun hroot => h hroot.1]

theorem depth_zero (h : ¬ HostMulti c) : Depth (Child c) (Root c) 0 0 :=
  ⟨0, (root_of_single h).mpr rfl, rfl⟩

/-- With one host a function on a reachable bus is below bus 0. -/
theorem Present.below (hx : Present c x) (h : ¬ HostMulti c) (hr : Reachable c x.bus) :
    Below c 0 x := by
  obtain ⟨n, r, hroot, hn⟩ := hr
  obtain rfl := (root_of_single h).mp hroot
  exact ⟨hx, n, hn⟩

theorem ofNat_val {func : ℕ} (h : func < 8) : (Fin.ofNat 256 func).val = func :=
  Nat.mod_eq_of_lt (h.trans (by decide))

/-- Without bridges on the buses that it scans, the loop from host 1 on ends and finds only
functions on these. -/
theorem checkHosts_rescans (hmulti : (c ⟨0, 0, 0⟩).multiFunc = true)
    (hbridge : ∀ x, Bridge c x → ¬ Rescanned c x.bus) (left : ℕ) :
    ∀ func, func + left = 8 → 1 ≤ func → (∀ i < func, (c ⟨0, 0, i⟩).vendor = 0xFFFF) →
      (pciCheckHosts c left func).isSome ∧
        FindsOnly (pciCheckHosts c left func) fun x => Rescanned c x.bus := by
  induction left with
  | zero =>
    intro func _ _ _
    exact ⟨rfl, findsOnly_nil⟩
  | succ left ih =>
    intro func hsum hfunc habsent
    rw [pciCheckHosts]
    split_ifs with hvendor
    · exact ⟨rfl, findsOnly_nil⟩
    rw [not_not] at hvendor
    have habsent' : ∀ i < func + 1, (c ⟨0, 0, i⟩).vendor = 0xFFFF := by
      intro i hi
      rcases Nat.lt_succ_iff_lt_or_eq.mp hi with hlt | rfl
      · exact habsent i hlt
      · exact hvendor
    have hval : (Fin.ofNat 256 func).val = func := ofNat_val (by omega)
    have hscan : Rescanned c (Fin.ofNat 256 func) := by
      rw [Rescanned, hval]
      exact ⟨hfunc, by omega, hmulti, fun i hi => habsent' i (Nat.lt_succ_of_le hi)⟩
    obtain ⟨hends, hfinds⟩ := checkBus_of_no_bridge (fun x hx hbus => hbridge x hx (hbus ▸ hscan)) 255
    obtain ⟨hends', hfinds'⟩ := ih (func + 1) (by omega) (by omega) habsent'
    obtain ⟨xs, hxs⟩ := Option.isSome_iff_exists.mp hends
    obtain ⟨ys, hys⟩ := Option.isSome_iff_exists.mp hends'
    refine ⟨Option.isSome_iff_exists.mpr ⟨xs ++ ys, both_eq_some.mpr ⟨xs, ys, hxs, hys, rfl⟩⟩, ?_⟩
    exact (hfinds.mono fun x hx => hx ▸ hscan).both hfinds'

/-- The loop over the hosts scans a bus when all functions up to its number are missing. -/
theorem checkHosts_mem (hb : ∀ xs, pciCheckBus c 256 b = some xs → x ∈ xs)
    (habsent : ∀ i ≤ b.val, (c ⟨0, 0, i⟩).vendor = 0xFFFF) (left : ℕ) :
    ∀ func, func ≤ b.val → b.val < func + left →
      ∀ xs, pciCheckHosts c left func = some xs → x ∈ xs := by
  induction left with
  | zero =>
    intro func hfunc hlt
    omega
  | succ left ih =>
    intro func hfunc hlt xs hxs
    rw [pciCheckHosts, if_neg (not_not.mpr (habsent func hfunc))] at hxs
    obtain ⟨ys, zs, hys, hzs, rfl⟩ := both_eq_some.mp hxs
    rw [List.mem_append]
    rcases Nat.lt_or_eq_of_le hfunc with hnext | rfl
    · exact .inr (ih (func + 1) hnext (by omega) zs hzs)
    · rw [Fin.ofNat_val_eq_self] at hys
      exact .inl (hb ys hys)

theorem discover_of_absent (hmulti : (c ⟨0, 0, 0⟩).multiFunc = true)
    (hvendor : (c ⟨0, 0, 0⟩).vendor = 0xFFFF) :
    pciDiscoverDevices c = both (pciCheckBus c 256 0) (pciCheckHosts c 7 1) := by
  rw [pciDiscoverDevices, hmulti, Bool.not_true, if_neg Bool.false_ne_true, pciCheckHosts,
    if_neg (not_not.mpr hvendor)]
  rfl

/-! ### When the scan is complete -/

/-- With several hosts the loop stops at the first, and nothing is found. -/
theorem not_hostMulti (h : Enumerates c) : ¬ HostMulti c := by
  intro hmulti
  obtain ⟨log, hlog, hcount⟩ := h
  rw [pciDiscoverDevices, hmulti.2, Bool.not_true, if_neg Bool.false_ne_true, pciCheckHosts,
    if_pos hmulti.1] at hlog
  obtain rfl := Option.some.inj hlog
  have hroot : Root c 0 := .inl ⟨hmulti, Nat.succ_pos 7, hmulti.1⟩
  have hone := hcount ⟨0, 0, 0⟩ ⟨Nat.succ_pos 31, Nat.succ_pos 7, hmulti.1, hmulti.1⟩
    ⟨0, 0, hroot, rfl⟩
  rw [List.count_nil] at hone
  exact Nat.zero_ne_one hone

theorem singleFunctions (h : Enumerates c) : SingleFunctions c := by
  obtain ⟨log, hlog, hcount⟩ := h
  have hfound : ∀ y, Present c y → Reachable c y.bus → Found c y := by
    intro y hy hr
    refine findsOnly_discover c log hlog y (List.count_pos_iff.mp ?_)
    rw [hcount y hy hr]
    exact Nat.one_pos
  intro x hx hr
  rcases hfound _ hx.zero hr with ⟨-, hzero⟩ | ⟨hne, -⟩
  · rcases hfound x hx hr with hx | ⟨-, hmulti⟩
    · exact hx
    · rw [hzero] at hmulti
      cases hmulti
  · exact absurd rfl hne

/-- A function on a bus that is scanned twice is found twice. -/
theorem not_rescanned (htree : BridgeTree c) (h : Enumerates c) (hx : Present c x)
    (hr : Reachable c x.bus) : ¬ Rescanned c x.bus := by
  rintro ⟨hone, hlt, hmulti, habsent⟩
  have hhost := not_hostMulti h
  have hsingle := singleFunctions h
  obtain ⟨log, hlog, hcount⟩ := h
  rw [discover_of_absent hmulti (habsent 0 (Nat.zero_le _))] at hlog
  obtain ⟨xs, ys, hxs, hys, rfl⟩ := both_eq_some.mp hlog
  have hfirst : x ∈ xs := by
    obtain ⟨zs, hzs, -, hmem⟩ := checkBus_lists htree hsingle 256 0 0 (depth_zero hhost) le_rfl
    obtain rfl := Option.some.inj (hxs.symm.trans hzs)
    exact (hmem x).mpr (hx.below hhost hr)
  have hsecond : x ∈ ys := by
    refine checkHosts_mem (fun zs hzs => ?_) habsent 7 1 hone (by omega) ys hys
    obtain ⟨n, hn⟩ := hr
    obtain ⟨ws, hws, -, hmem⟩ := checkBus_lists htree hsingle 256 n x.bus hn (Nat.le_add_left _ _)
    obtain rfl := Option.some.inj (hzs.symm.trans hws)
    exact (hmem x).mpr ⟨hx, 0, rfl⟩
  have htwice := hcount x hx hr
  rw [List.count_append] at htwice
  have := List.count_pos_iff.mpr hfirst
  have := List.count_pos_iff.mpr hsecond
  omega

theorem enumerates_of_single (htree : BridgeTree c) (hhost : ¬ HostMulti c)
    (hsingle : SingleFunctions c)
    (hscan : ∀ x, Present c x → Reachable c x.bus → ¬ Rescanned c x.bus) : Enumerates c := by
  obtain ⟨xs, hxs, hnodup, hmem⟩ := checkBus_lists htree hsingle 256 0 0 (depth_zero hhost) le_rfl
  have hcount : ∀ x, Present c x → Reachable c x.bus → xs.count x = 1 := by
    intro x hx hr
    exact List.count_eq_one_of_mem hnodup ((hmem x).mpr (hx.below hhost hr))
  by_cases hmulti : (c ⟨0, 0, 0⟩).multiFunc = true
  · have hvendor : (c ⟨0, 0, 0⟩).vendor = 0xFFFF := by
      by_contra hne
      exact hhost ⟨hne, hmulti⟩
    obtain ⟨hends, hfinds⟩ := checkHosts_rescans hmulti
      (fun x hx => hscan x hx.1 (htree.reachable x hx)) 7 1 rfl le_rfl
      fun i hi => Nat.lt_one_iff.mp hi ▸ hvendor
    obtain ⟨ys, hys⟩ := Option.isSome_iff_exists.mp hends
    refine ⟨xs ++ ys, ?_, fun x hx hr => ?_⟩
    · rw [discover_of_absent hmulti hvendor]
      exact both_eq_some.mpr ⟨xs, ys, hxs, hys, rfl⟩
    · rw [List.count_append, hcount x hx hr, List.count_eq_zero_of_not_mem]
      exact fun hy => hscan x hx hr (hfinds ys hys x hy)
  · refine ⟨xs, ?_, hcount⟩
    rw [pciDiscoverDevices, Bool.eq_false_of_not_eq_true hmulti]
    exact hxs

/-- The scan finds every present function on a reachable bus exactly once, just when there
is one host, all devices have one function and no bus with a function is scanned again. -/
theorem pci_enumerates_iff (htree : BridgeTree c) :
    Enumerates c ↔ ¬ HostMulti c ∧ SingleFunctions c ∧
      ∀ x, Present c x → Reachable c x.bus → ¬ Rescanned c x.bus := by
  constructor
  · intro h
    exact ⟨not_hostMulti h, singleFunctions h, fun x hx hr => not_rescanned htree h hx hr⟩
  · rintro ⟨hhost, hsingle, hscan⟩
    exact enumerates_of_single htree hhost hsingle hscan

end Tree

/-- What an address without a function reads. -/
def absent : PciHeader := ⟨0xFFFF, 0xFF, 0xFF, true, 255⟩

/-- A host bridge, and a bridge to a network card on bus 1. -/
def bridgedCard : Config := fun x =>
  if x = ⟨0, 0, 0⟩ then ⟨0x8086, 0x06, 0x00, false, 0⟩
  else if x = ⟨0, 1, 0⟩ then ⟨0x8086, 0x06, 0x04, false, 1⟩
  else if x = ⟨1, 0, 0⟩ then ⟨0x8086, 0x02, 0x00, false, 0⟩
  else absent

theorem pci_enumerates_bridgedCard : Enumerates bridgedCard := by
  have hpresent : ∀ x, Present bridgedCard x → x = ⟨0, 0, 0⟩ ∨ x = ⟨0, 1, 0⟩ ∨ x = ⟨1, 0, 0⟩ := by
    intro x hx
    by_contra hne
    rw [not_or, not_or] at hne
    refine hx.2.2.1 ?_
    rw [bridgedCard, if_neg hne.1, if_neg hne.2.1, if_neg hne.2.2]
    rfl
  have hbridge : ∀ x, Bridge bridgedCard x → x = ⟨0, 1, 0⟩ := by
    intro x hx
    rcases hpresent x hx.1 with rfl | rfl | rfl
    · exact absurd hx.2.2 (by decide)
    · rfl
    · exact absurd hx.2.1 (by decide)
  have hhost : ¬ HostMulti bridgedCard := fun h => absurd h.2 (by decide)
  have htree : BridgeTree bridgedCard := by
    refine ⟨fun x hx => ?_, fun x y hx hy _ => ?_, fun x hx => ?_⟩
    · rw [hbridge x hx]
      exact ⟨0, depth_zero hhost⟩
    · rw [hbridge x hx, hbridge y hy]
    · rw [hbridge x hx, root_of_single hhost]
      decide
  refine (pci_enumerates_iff htree).mpr ⟨hhost, fun x hx _ => ?_, fun x _ _ hscan => ?_⟩
  · rcases hpresent x hx with rfl | rfl | rfl <;> exact ⟨rfl, rfl⟩
  · exact absurd hscan.2.2.1 (by decide)

/-- A host bridge and a chipset with two functions. -/
def chipset : Config := fun x =>
  if x = ⟨0, 0, 0⟩ then ⟨0x8086, 0x06, 0x00, false, 0⟩
  else if x = ⟨0, 1, 0⟩ then ⟨0x8086, 0x06, 0x01, true, 0⟩
  else if x = ⟨0, 1, 1⟩ then ⟨0x8086, 0x01, 0x01, true, 0⟩
  else absent

/-- Function 0 of the chipset is not found. -/
theorem pci_misses_function_zero : BridgeTree chipset ∧ ¬ Enumerates chipset := by
  have hbridge : ∀ x, ¬ Bridge chipset x := by
    rintro x ⟨⟨-, -, hvendor, -⟩, -, hsubclass⟩
    rw [chipset] at hvendor hsubclass
    split_ifs at hvendor hsubclass
    · exact absurd hsubclass (by decide)
    · exact absurd hsubclass (by decide)
    · exact absurd hsubclass (by decide)
  refine ⟨⟨fun x hx => absurd hx (hbridge x), fun x _ hx => absurd hx (hbridge x),
    fun x hx => absurd hx (hbridge x)⟩, ?_⟩
  rintro ⟨log, hlog, hcount⟩
  have hhost : ¬ HostMulti chipset := fun h => absurd h.2 (by decide)
  have hone := hcount ⟨0, 1, 0⟩ (by refine ⟨?_, ?_, ?_, ?_⟩ <;> decide) ⟨0, depth_zero hhost⟩
  have hmem : (⟨0, 1, 0⟩ : Location) ∈ log := by
    rw [← List.count_pos_iff, hone]
    exact Nat.one_pos
  rcases findsOnly_discover chipset log hlog _ hmem with ⟨-, hmulti⟩ | ⟨hne, -⟩
  · exact absurd hmulti (by decide)
  · exact hne rfl

end DosKernel.Pci
