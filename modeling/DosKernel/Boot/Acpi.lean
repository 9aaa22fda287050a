import DosKernel.Lib.Bytes
import DosKernel.Lib.Loop

/-! The tables of ACPI. `acpi_init` looks for the FADT among the tables of the firmware, enables ACPI and
takes the sleep types out of the package `\_S5`; `acpi_shutdown` and `acpi_reboot` write what the
tables say. -/

namespace DosKernel.Boot

open Lib

/-! ### The code -/

/-- What the driver does outside of its variables. -/
inductive AcpiAction
  | outb (port value : ℕ)
  | outw (port value : ℕ)
  | irqInstallHandler (int : ℕ)
  | store (a value : ℕ)
  | pciWriteByte (bus slot func offset value : ℕ)
  deriving DecidableEq

/-- The pages that are mapped, the static variables, and what was done. -/
structure Acpi where
  mapped : List ℕ
  fadt : ℕ
  acpiTypA : UInt8
  acpiTypB : UInt8
  actions : List AcpiAction
  deriving DecidableEq

/-- The values that `inw` gives after some actions: the `n`th read of a port. -/
abbrev Inw := List AcpiAction → (port n : ℕ) → UInt16

def facp : List UInt8 := ['F'.toUInt8, 'A'.toUInt8, 'C'.toUInt8, 'P'.toUInt8]

def rsdtSignature : List UInt8 := ['R'.toUInt8, 'S'.toUInt8, 'D'.toUInt8, 'T'.toUInt8]

def s5 : List UInt8 := ['_'.toUInt8, 'S'.toUInt8, '5'.toUInt8, '_'.toUInt8]

/-- `mmu_map_pages` of pages at their own addresses. -/
def Acpi.mapPages (s : Acpi) (a len : ℕ) : Acpi :=
  { s with mapped := s.mapped ++ (List.range len).map fun i => (a + i * 4096) % space / 4096 }

/-- A read by the kernel; in a page that is not mapped it is a fault. -/
def Acpi.byte (s : Acpi) (m : Memory) (a : ℕ) : Option UInt8 :=
  if a % space / 4096 ∈ s.mapped then some (m (a % space)) else none

section Code
variable (m : Memory) (inw : Inw)

def acpiRsdtChecksum (s : Acpi) (rsdt : ℕ) : Option Bool := do
  let length ← readNumber (s.byte m) 4 (rsdt + 4)
  let checksum ← readSum (s.byte m) length rsdt 0
  some (checksum = 0)

/-- An element of the package, maybe behind a byte prefix, and where the next one is. -/
def readElement (s : Acpi) (ptr : ℕ) : Option (UInt8 × ℕ) := do
  let b ← s.byte m ptr
  if b = 10 then
    let v ← s.byte m (ptr + 1)
    some (v, ptr + 2)
  else some (b, ptr + 1)

/-- The loop of `acpi_read_dsdt` with `n` bytes to go. -/
def findS5 (s : Acpi) : (n ptr : ℕ) → Option Acpi
  | 0, _ => some s
  | n + 1, ptr => do
    if ← readEq (s.byte m) s5 ptr then
      let lead ← s.byte m (ptr + 5)
      let a ← readElement m s (ptr + 5 + (lead.toNat / 64 + 2))
      let b ← readElement m s a.2
      some { s with acpiTypA := a.1, acpiTypB := b.1 }
    else findS5 s n (ptr + 1)

/-- `acpi_read_dsdt`. The texts that it prints are in the header. -/
def acpiReadDsdt (s : Acpi) (dsdt : ℕ) : Option Acpi := do
  let s := s.mapPages dsdt 4
  if ← acpiRsdtChecksum m s dsdt then
    let _ ← readSum (s.byte m) 36 dsdt 0
    let length ← readNumber (s.byte m) 4 (dsdt + 4)
    findS5 m s ((dsdt + length) % space - (dsdt + 36) % space) ((dsdt + 36) % space)
  else some s

/-- The loop that waits for `SCI_EN`. -/
def awaitEnabled (actions : List AcpiAction) (port : ℕ) : (fuel n : ℕ) → Option Unit
  | 0, _ => none
  | fuel + 1, n =>
    if (inw actions port n).toNat % 2 = 1 then some () else awaitEnabled actions port fuel (n + 1)

/-- `acpi_read_fadt`. What it prints goes up to the reset value. -/
def acpiReadFadt (fuel : ℕ) (s : Acpi) (fadt : ℕ) : Option Acpi := do
  let _ ← readSum (s.byte m) 129 fadt 0
  let smiCmd ← readNumber (s.byte m) 4 (fadt + 48)
  let acpiEnable ← readNumber (s.byte m) 1 (fadt + 52)
  let pm1aControlBlock ← readNumber (s.byte m) 4 (fadt + 64)
  let actions := s.actions ++ [.outb (smiCmd % 65536) acpiEnable]
  awaitEnabled inw actions (pm1aControlBlock % 65536) fuel 0
  let sciInt ← readNumber (s.byte m) 2 (fadt + 46)
  let dsdt ← readNumber (s.byte m) 4 (fadt + 40)
  acpiReadDsdt m { s with
    actions := actions ++ [.irqInstallHandler sciInt, .outw (pm1aControlBlock % 65536) 1] } dsdt

def acpiReadRsdt : (fuel : ℕ) → (s : Acpi) → (rsdt : ℕ) → Option Acpi
  | 0, _, _ => none
  | fuel + 1, s, rsdt => do
    let s := s.mapPages rsdt 1
    if ← acpiRsdtChecksum m s rsdt then
      let _ ← readSum (s.byte m) 36 rsdt 0
      if ← readEq (s.byte m) facp rsdt then
        let s ← acpiReadFadt m inw fuel s rsdt
        some { s with fadt := rsdt }
      else if ← readEq (s.byte m) rsdtSignature rsdt then
        let length ← readNumber (s.byte m) 4 (rsdt + 4)
        (List.range ((length + space - 36) % space / 4)).foldlM (fun s i => do
          let entry ← readNumber (s.byte m) 4 (rsdt + 36 + 4 * i)
          acpiReadRsdt fuel s entry) s
      else some s
    else some s

/-- `acpi_init`, where `acpi_rsdp_checksum` adds the 20 bytes of the structure. -/
def acpiInit (fuel : ℕ) (s : Acpi) (rsdp : ℕ) : Option Acpi := do
  let s := s.mapPages rsdp 1
  let checksum ← readSum (s.byte m) 20 rsdp 0
  if checksum = 0 then
    let rsdt ← readNumber (s.byte m) 4 (rsdp + 16)
    acpiReadRsdt m inw fuel s rsdt
  else some s

def acpiShutdown (s : Acpi) : Option (List AcpiAction) :=
  if s.fadt = 0 then some []
  else do
    let pm1aControlBlock ← readNumber (s.byte m) 4 (s.fadt + 64)
    let pm1bControlBlock ← readNumber (s.byte m) 4 (s.fadt + 68)
    some (.outw (pm1aControlBlock % 65536) ((8192 ||| s.acpiTypA.toNat * 1024) % 65536) ::
      if pm1bControlBlock = 0 then []
      else [.outw (pm1bControlBlock % 65536) ((8192 ||| s.acpiTypB.toNat * 1024) % 65536)])

/-- The switch of `acpi_reboot` with the fields of the reset register and the reset value. -/
def resetAction (addressSpaceId address resetValue : ℕ) : List AcpiAction :=
  match addressSpaceId with
  | 1 => [.outb (address % 65536) resetValue]
  | 0 => [.store (address % space) resetValue]
  | 2 => [.pciWriteByte 0 (address / 2 ^ 32 % 256) (address / 2 ^ 16 % 256) (address % 65536) resetValue]
  | _ => []

def acpiReboot (s : Acpi) : Option (List AcpiAction) :=
  if s.fadt = 0 then some []
  else do
    let addressSpaceId ← readNumber (s.byte m) 1 (s.fadt + 116)
    let address ← readNumber (s.byte m) 8 (s.fadt + 120)
    let resetValue ← readNumber (s.byte m) 1 (s.fadt + 128)
    some (resetAction addressSpaceId address resetValue)

end Code

/-! ### The tables of the firmware -/

/-- A number in AML: one byte, or a byte behind its prefix. -/
inductive AmlNumber
  | plain (v : UInt8) (h : v ≠ 10)
  | byte (v : UInt8)

namespace AmlNumber

def value : AmlNumber → UInt8
  | plain v _ => v
  | byte v => v

def encode : AmlNumber → List UInt8
  | plain v _ => [v]
  | byte v => [10, v]

end AmlNumber

/-- The package `\_S5`: the length takes the lead byte and as many more as its two high bits say, then
come the number of elements and the two sleep types. -/
structure SleepPackage where
  lead : UInt8
  more : List UInt8
  count : UInt8
  typA : AmlNumber
  typB : AmlNumber
  more_length : more.length = lead.toNat / 64

def SleepPackage.encode (p : SleepPackage) : List UInt8 :=
  s5 ++ 18 :: p.lead :: (p.more ++ p.count :: (p.typA.encode ++ p.typB.encode))

/-- The bytes of a table; behind its length there may be others. -/
structure IsTable (bs : List UInt8) : Prop where
  header : 36 ≤ bs.length
  length : numberAt bs 4 4 ≤ bs.length

/-- The bytes of a table add up to zero. -/
def Checks (bs : List UInt8) : Prop := byteSum (bs.take (numberAt bs 4 4)) = 0

instance (bs : List UInt8) : Decidable (Checks bs) := inferInstanceAs (Decidable (_ = _))

/-- A table that `acpi_read_rsdt` leaves alone. -/
structure IsOther (bs : List UInt8) : Prop extends IsTable bs where
  other : Checks bs → ¬ facp <+: bs ∧ ¬ rsdtSignature <+: bs

structure IsFadt (bs : List UInt8) : Prop extends IsTable bs where
  size : 132 ≤ bs.length
  checks : Checks bs
  signature : facp <+: bs

/-- A DSDT with a package behind some other code. -/
structure IsDsdt (bs before : List UInt8) (p : SleepPackage) : Prop extends IsTable bs where
  checks : Checks bs
  package : before ++ p.encode <+: bs.drop 36
  inside : 36 + before.length < numberAt bs 4 4
  first : ∀ i < before.length, ¬ s5 <+: (before ++ p.encode).drop i

/-- The bytes of `bs` lie at an address, in the pages that are mapped from there on. -/
structure Placed (m : Memory) (a : ℕ) (bs : List UInt8) (pages : ℕ) : Prop where
  bytes : BytesAt m a bs
  pages : a % 4096 + bs.length ≤ 4096 * pages
  inside : a + bs.length < space

/-- The firmware: a pointer to the RSDT, the RSDT with the addresses of some tables, one of them the FADT,
and the DSDT that this one leads to. -/
structure Firmware where
  rsdp : List UInt8
  rsdtHeader : List UInt8
  before : List (ℕ × List UInt8)
  fadtAddress : ℕ
  fadt : List UInt8
  after : List (ℕ × List UInt8)
  dsdt : List UInt8
  code : List UInt8
  package : SleepPackage

namespace Firmware

variable (f : Firmware)

def tables : List (ℕ × List UInt8) := f.before ++ (f.fadtAddress, f.fadt) :: f.after

def rsdt : List UInt8 := f.rsdtHeader ++ f.tables.flatMap fun t => toBytes 4 t.1

def enabling : List AcpiAction := [.outb (numberAt f.fadt 48 4 % 65536) (numberAt f.fadt 52 1)]

/-- It is in memory, with the pointer at `rsdp`, and it sets `SCI_EN` at some time when it is told to. -/
structure At (m : Memory) (inw : Inw) (actions : List AcpiAction) (rsdp : ℕ) : Prop where
  pointer : Placed m rsdp f.rsdp 1
  pointer_length : f.rsdp.length = 20
  pointer_checks : byteSum f.rsdp = 0
  rsdt : Placed m (numberAt f.rsdp 16 4) f.rsdt 1
  rsdt_header : f.rsdtHeader.length = 36
  rsdt_signature : rsdtSignature <+: f.rsdt
  rsdt_length : numberAt f.rsdt 4 4 = f.rsdt.length
  rsdt_checks : byteSum f.rsdt = 0
  others : ∀ t ∈ f.before ++ f.after, IsOther t.2 ∧ Placed m t.1 t.2 1
  fadt : IsFadt f.fadt
  fadt_placed : Placed m f.fadtAddress f.fadt 1
  fadt_address : f.fadtAddress ≠ 0
  dsdt : IsDsdt f.dsdt f.code f.package
  dsdt_placed : Placed m (numberAt f.fadt 40 4) f.dsdt 4
  enables : ∃ n, (inw (actions ++ f.enabling) (numberAt f.fadt 64 4 % 65536) n).toNat % 2 = 1

end Firmware

/-! ### Mapped pages -/

def Acpi.Maps (s : Acpi) (a len : ℕ) : Prop := ∀ i < len, (a + i * 4096) % space / 4096 ∈ s.mapped

variable {m : Memory} {inw : Inw} {s s' : Acpi} {a len : ℕ} {bs rest before : List UInt8}
  {p : SleepPackage}

theorem Acpi.subset_mapPages (s : Acpi) (a len : ℕ) : s.mapped ⊆ (s.mapPages a len).mapped :=
  List.subset_append_left _ _

theorem Acpi.mapPages_maps (s : Acpi) (a len : ℕ) : (s.mapPages a len).Maps a len := fun i hi =>
  List.mem_append_right _ (List.mem_map.mpr ⟨i, List.mem_range.mpr hi, rfl⟩)

theorem Acpi.Maps.mono (h : s.Maps a len) (hsub : s.mapped ⊆ s'.mapped) : s'.Maps a len :=
  fun i hi => hsub (h i hi)

/-- What lies in mapped pages is read without a fault. -/
theorem Placed.readsAt (h : Placed m a bs len) (hs : s.Maps a len) : ReadsAt (s.byte m) a bs := by
  intro i b hb
  have hi : i < bs.length := (List.getElem?_eq_some_iff.mp hb).1
  have hbyte : m (a + i) = b := Option.some.inj (h.bytes i b hb)
  have hpages := h.pages
  have hinside := h.inside
  have hmod : (a + i) % space = a + i := Nat.mod_eq_of_lt (by omega)
  have hpage := hs ((a % 4096 + i) / 4096) (by omega)
  have hsame : (a + (a % 4096 + i) / 4096 * 4096) % space / 4096 = (a + i) / 4096 := by
    rw [space] at hinside ⊢
    omega
  rw [hsame] at hpage
  rw [Acpi.byte, hmod, if_pos hpage, hbyte]

/-! ### The sleep types -/

theorem readElement_encode {x : AmlNumber} (h : ReadsAt (s.byte m) a (x.encode ++ rest)) :
    readElement m s a = some (x.value, a + x.encode.length) := by
  obtain ⟨hx, -⟩ := readsAt_append.mp h
  cases x with
  | plain v hv =>
    have hfirst : s.byte m a = some v := (readsAt_cons.mp hx).1
    simp [readElement, hfirst, hv, AmlNumber.value, AmlNumber.encode]
  | byte v =>
    obtain ⟨hfirst, hrest⟩ := readsAt_cons.mp hx
    have hsecond : s.byte m (a + 1) = some v := (readsAt_cons.mp hrest).1
    simp [readElement, hfirst, hsecond, AmlNumber.value, AmlNumber.encode]

theorem SleepPackage.four_le (p : SleepPackage) : s5.length ≤ p.encode.length := by
  rw [SleepPackage.encode, List.length_append]
  omega

theorem findS5_package (h : ReadsAt (s.byte m) a p.encode) (n : ℕ) :
    findS5 m s (n + 1) a = some { s with acpiTypA := p.typA.value, acpiTypB := p.typB.value } := by
  have hname := h.eq p.four_le
  have hpackage : s5 <+: p.encode := List.prefix_append _ _
  obtain ⟨-, hbehind⟩ := readsAt_append.mp h
  obtain ⟨-, hbehind⟩ := readsAt_cons.mp hbehind
  obtain ⟨hlead, hbehind⟩ := readsAt_cons.mp hbehind
  obtain ⟨-, hbehind⟩ := readsAt_append.mp hbehind
  obtain ⟨-, hbehind⟩ := readsAt_cons.mp hbehind
  have hlead : s.byte m (a + 5) = some p.lead := hlead
  have hplace : a + s5.length + 1 + 1 + p.more.length + 1 = a + 5 + (p.lead.toNat / 64 + 2) := by
    rw [p.more_length, show s5.length = 4 from rfl]
    omega
  rw [hplace] at hbehind
  have hA := readElement_encode hbehind
  obtain ⟨-, hbehind⟩ := readsAt_append.mp hbehind
  rw [← List.append_nil p.typB.encode] at hbehind
  have hB := readElement_encode hbehind
  simp only [findS5, hname, hpackage, hlead, hA, hB, decide_true, if_true, Option.bind_eq_bind,
    Option.bind_some]

theorem findS5_first (h : ReadsAt (s.byte m) a (before ++ p.encode))
    (hfirst : ∀ i < before.length, ¬ s5 <+: (before ++ p.encode).drop i) {n : ℕ}
    (hn : before.length < n) :
    findS5 m s n a = some { s with acpiTypA := p.typA.value, acpiTypB := p.typB.value } := by
  induction before generalizing a n with
  | nil =>
    obtain ⟨n, rfl⟩ := Nat.exists_eq_succ_of_ne_zero (Nat.ne_of_gt hn)
    exact findS5_package h n
  | cons b before ih =>
    obtain ⟨n, rfl⟩ := Nat.exists_eq_succ_of_ne_zero (Nat.ne_of_gt (Nat.zero_lt_of_lt hn))
    have hlength : s5.length ≤ (b :: before ++ p.encode).length := by
      have hpackage := p.four_le
      rw [List.length_append]
      omega
    have hname := h.eq hlength
    have hnot : ¬ s5 <+: b :: before ++ p.encode := hfirst 0 (by simp)
    have hnext := ih (readsAt_cons.mp h).2 (fun i hi => hfirst (i + 1) (Nat.succ_lt_succ hi))
      (Nat.lt_of_succ_lt_succ hn)
    simp only [findS5, hname, hnot, decide_false, Bool.false_eq_true, if_false, Option.bind_eq_bind,
      Option.bind_some, hnext]

/-! ### The tables -/

theorem acpiRsdtChecksum_eq (hbs : IsTable bs) (h : ReadsAt (s.byte m) a bs) :
    acpiRsdtChecksum m s a = some (decide (Checks bs)) := by
  have hheader := hbs.header
  have hlength := h.number (show 4 + 4 ≤ bs.length by omega)
  have hsum := (h.take (numberAt bs 4 4)).sum 0
  rw [List.length_take, Nat.min_eq_left hbs.length, UInt8.zero_add] at hsum
  simp only [acpiRsdtChecksum, hlength, hsum, Option.bind_eq_bind, Option.bind_some]
  rfl

theorem exists_readSum (h : ReadsAt (s.byte m) a bs) {n : ℕ} (hn : n ≤ bs.length) :
    ∃ sum, readSum (s.byte m) n a 0 = some sum := by
  have hsum := (h.take n).sum 0
  rw [List.length_take, Nat.min_eq_left hn] at hsum
  exact ⟨_, hsum⟩

/-- The state with the sleep types of the package. -/
def Acpi.sleepTypes (s : Acpi) (p : SleepPackage) : Acpi :=
  { s with acpiTypA := p.typA.value, acpiTypB := p.typB.value }

theorem acpiReadDsdt_eq (hbs : IsDsdt bs before p) (h : Placed m a bs 4) :
    acpiReadDsdt m s a = some ((s.mapPages a 4).sleepTypes p) := by
  have hread := h.readsAt (s.mapPages_maps a 4)
  obtain ⟨sum, hsum⟩ := exists_readSum hread hbs.header
  have hheader := hbs.header
  have hlength := hread.number (show 4 + 4 ≤ bs.length by omega)
  have hinside := h.inside
  have hle := hbs.length
  have hstart : (a + 36) % space = a + 36 := Nat.mod_eq_of_lt (by omega)
  have hend : (a + numberAt bs 4 4) % space = a + numberAt bs 4 4 := Nat.mod_eq_of_lt (by omega)
  obtain ⟨behind, hcode⟩ := hbs.package
  have hcodeAt : ReadsAt ((s.mapPages a 4).byte m) (a + 36) (before ++ p.encode ++ behind) := by
    rw [hcode]
    exact hread.drop 36
  have hfind := findS5_first (readsAt_append.mp hcodeAt).1 hbs.first
    (show before.length < a + numberAt bs 4 4 - (a + 36) by have := hbs.inside; omega)
  simp only [acpiReadDsdt, acpiRsdtChecksum_eq hbs.toIsTable hread, hbs.checks, hsum, hlength, hstart, hend,
    decide_true, if_true, Option.bind_eq_bind, Option.bind_some, hfind]
  rfl

/-- The loop ends when the bit is set at some time. -/
theorem awaitEnabled_eq {actions : List AcpiAction} {port n : ℕ}
    (h : (inw actions port n).toNat % 2 = 1) {fuel k : ℕ} (hk : k ≤ n) (hfuel : n < fuel + k) :
    awaitEnabled inw actions port fuel k = some () := by
  induction fuel generalizing k with
  | zero => omega
  | succ fuel ih =>
    rw [awaitEnabled]
    split_ifs with hset
    · rfl
    · have hne : k ≠ n := by
        rintro rfl
        exact hset h
      exact ih (by omega) (by omega)

/-- A table of another kind is only mapped. -/
theorem acpiReadRsdt_other (hbs : IsOther bs) (h : Placed m a bs 1) (fuel : ℕ) :
    acpiReadRsdt m inw (fuel + 1) s a = some (s.mapPages a 1) := by
  have hread := h.readsAt (s.mapPages_maps a 1)
  obtain ⟨sum, hsum⟩ := exists_readSum hread hbs.header
  have hheader := hbs.header
  have hfacp := hread.eq (show facp.length ≤ bs.length from Nat.le_trans (by decide) hheader)
  have hrsdt := hread.eq (show rsdtSignature.length ≤ bs.length from Nat.le_trans (by decide) hheader)
  rw [acpiReadRsdt]
  simp only [acpiRsdtChecksum_eq hbs.toIsTable hread, Option.bind_eq_bind, Option.bind_some]
  by_cases hchecks : Checks bs
  · obtain ⟨hnotFacp, hnotRsdt⟩ := hbs.other hchecks
    simp only [hchecks, hsum, hfacp, hrsdt, hnotFacp, hnotRsdt, decide_true, decide_false, if_true,
      Bool.false_eq_true, if_false, Option.bind_some]
  · simp only [hchecks, decide_false, Bool.false_eq_true, if_false]

/-- The actions of `acpi_read_fadt`. -/
def Firmware.setup (f : Firmware) : List AcpiAction :=
  f.enabling ++ [.irqInstallHandler (numberAt f.fadt 46 2), .outw (numberAt f.fadt 64 4 % 65536) 1]

variable {f : Firmware} {rsdp : ℕ} {actions : List AcpiAction}

structure Firmware.Found (f : Firmware) (actions : List AcpiAction) (s : Acpi) : Prop where
  maps : s.Maps f.fadtAddress 1
  fadt : s.fadt = f.fadtAddress
  typA : s.acpiTypA = f.package.typA.value
  typB : s.acpiTypB = f.package.typB.value
  actions : s.actions = actions ++ f.setup

theorem Firmware.Found.mono (h : f.Found actions s) (a len : ℕ) : f.Found actions (s.mapPages a len) where
  maps := h.maps.mono (s.subset_mapPages a len)
  fadt := h.fadt
  typA := h.typA
  typB := h.typB
  actions := h.actions

/-- The state in which `acpi_read_fadt` leaves the driver. -/
def Firmware.enabled (f : Firmware) (s : Acpi) : Acpi :=
  ({ s with actions := s.actions ++ f.setup }.mapPages (numberAt f.fadt 40 4) 4).sleepTypes f.package

theorem acpiReadFadt_eq (s : Acpi) (h : f.At m inw s.actions rsdp) (hs : s.Maps f.fadtAddress 1) {n fuel : ℕ}
    (hn : (inw (s.actions ++ f.enabling) (numberAt f.fadt 64 4 % 65536) n).toNat % 2 = 1)
    (hfuel : n < fuel) : acpiReadFadt m inw fuel s f.fadtAddress = some (f.enabled s) := by
  have hread := h.fadt_placed.readsAt hs
  have hsize := h.fadt.size
  obtain ⟨sum, hprinted⟩ := exists_readSum hread (show 129 ≤ f.fadt.length by omega)
  have hsmi := hread.number (show 48 + 4 ≤ f.fadt.length by omega)
  have henable := hread.number (show 52 + 1 ≤ f.fadt.length by omega)
  have hpm1a := hread.number (show 64 + 4 ≤ f.fadt.length by omega)
  have hsci := hread.number (show 46 + 2 ≤ f.fadt.length by omega)
  have hdsdt := hread.number (show 40 + 4 ≤ f.fadt.length by omega)
  have hwait := awaitEnabled_eq hn (Nat.zero_le n) (show n < fuel + 0 from hfuel)
  rw [Firmware.enabling] at hwait
  simp only [acpiReadFadt, hprinted, hsmi, henable, hpm1a, hsci, hdsdt, hwait, Option.bind_eq_bind,
    Option.bind_some, List.append_assoc]
  exact acpiReadDsdt_eq h.dsdt h.dsdt_placed

/-- The FADT is read when the number of rounds is enough for the bit to be set. -/
theorem acpiReadRsdt_fadt (h : f.At m inw s.actions rsdp) {n fuel : ℕ}
    (hn : (inw (s.actions ++ f.enabling) (numberAt f.fadt 64 4 % 65536) n).toNat % 2 = 1)
    (hfuel : n < fuel) : acpiReadRsdt m inw (fuel + 1) s f.fadtAddress =
      some { f.enabled (s.mapPages f.fadtAddress 1) with fadt := f.fadtAddress } := by
  have hread := h.fadt_placed.readsAt (s.mapPages_maps f.fadtAddress 1)
  obtain ⟨sum, hsum⟩ := exists_readSum hread h.fadt.header
  have hfacp := hread.eq (show facp.length ≤ f.fadt.length from Nat.le_trans (by decide) h.fadt.header)
  have hfadt := acpiReadFadt_eq (s.mapPages f.fadtAddress 1) h (s.mapPages_maps f.fadtAddress 1) hn hfuel
  rw [acpiReadRsdt]
  simp only [acpiRsdtChecksum_eq h.fadt.toIsTable hread, h.fadt.checks, hsum, hfacp, h.fadt.signature, hfadt,
    decide_true, if_true, Option.bind_eq_bind, Option.bind_some]

theorem Firmware.found_enabled (f : Firmware) (hs : s.Maps f.fadtAddress 1) :
    f.Found s.actions { f.enabled s with fadt := f.fadtAddress } where
  maps := hs.mono (s.subset_mapPages _ _)
  fadt := rfl
  typA := rfl
  typB := rfl
  actions := rfl

/-! ### The RSDT -/

theorem readNumber_entry {read : ℕ → Option UInt8} {tables : List (ℕ × List UInt8)}
    (h : ReadsAt read a (tables.flatMap fun t => toBytes 4 t.1)) (hlt : ∀ t ∈ tables, t.1 < 256 ^ 4) {i : ℕ}
    (hi : i < tables.length) : readNumber read 4 (a + 4 * i) = some tables[i].1 := by
  induction tables generalizing a i with
  | nil => exact absurd hi (Nat.not_lt_zero i)
  | cons t tables ih =>
    rw [List.flatMap_cons] at h
    obtain ⟨hfirst, hrest⟩ := readsAt_append.mp h
    cases i with
    | zero => exact hfirst.toBytes (hlt t List.mem_cons_self)
    | succ i =>
      rw [toBytes_length] at hrest
      have hnext := ih hrest (fun t ht => hlt t (List.mem_cons_of_mem _ ht)) (Nat.lt_of_succ_lt_succ hi)
      rwa [Nat.mul_succ, Nat.add_comm (4 * i), ← Nat.add_assoc]

theorem Firmware.rsdt_size (h : f.At m inw actions rsdp) : f.rsdt.length = 36 + 4 * f.tables.length := by
  rw [Firmware.rsdt, List.length_append, h.rsdt_header, List.length_flatMap]
  simp [Nat.mul_comm]

/-- What the loop over the entries keeps. -/
structure Firmware.Walked (f : Firmware) (s₀ : Acpi) (i : ℕ) (s : Acpi) : Prop where
  maps : s.Maps (numberAt f.rsdp 16 4) 1
  searching : i ≤ f.before.length → s.actions = s₀.actions
  found : f.before.length < i → f.Found s₀.actions s

theorem Firmware.table_placed (h : f.At m inw actions rsdp) {t : ℕ × List UInt8} (ht : t ∈ f.tables) :
    Placed m t.1 t.2 1 := by
  rw [Firmware.tables, List.mem_append, List.mem_cons] at ht
  rcases ht with hbefore | rfl | hafter
  · exact (h.others t (List.mem_append_left _ hbefore)).2
  · exact h.fadt_placed
  · exact (h.others t (List.mem_append_right _ hafter)).2

/-- Every table but the FADT is another one. -/
theorem Firmware.table_other (h : f.At m inw actions rsdp) {i : ℕ} (hi : i < f.tables.length)
    (hne : i ≠ f.before.length) : IsOther f.tables[i].2 := by
  rcases Nat.lt_or_gt_of_ne hne with hlt | hgt
  · have htable : f.tables[i] = f.before[i] := List.getElem_append_left hlt
    rw [htable]
    exact (h.others _ (List.mem_append_left _ (List.getElem_mem hlt))).1
  · obtain ⟨k, rfl⟩ := Nat.exists_eq_add_of_lt hgt
    have hk : k < f.after.length := by
      rw [Firmware.tables, List.length_append, List.length_cons] at hi
      omega
    have htable : f.tables[f.before.length + k + 1] = f.after[k] := by
      simp only [Firmware.tables, Nat.add_assoc]
      rw [List.getElem_append_right (Nat.le_add_right _ _)]
      simp
    rw [htable]
    exact (h.others _ (List.mem_append_right _ (List.getElem_mem hk))).1

theorem Firmware.Walked.entry {s₀ : Acpi} (h : f.At m inw s₀.actions rsdp) {n fuel i : ℕ}
    (hn : (inw (s₀.actions ++ f.enabling) (numberAt f.fadt 64 4 % 65536) n).toNat % 2 = 1)
    (hfuel : n < fuel) (hi : i < f.tables.length) (hs : f.Walked s₀ i s) :
    ∃ s', (do
        let entry ← readNumber (s.byte m) 4 (numberAt f.rsdp 16 4 + 36 + 4 * i)
        acpiReadRsdt m inw (fuel + 1) s entry) = some s' ∧ f.Walked s₀ (i + 1) s' := by
  have hentries := (readsAt_append.mp (h.rsdt.readsAt hs.maps)).2
  rw [h.rsdt_header] at hentries
  have hentry := readNumber_entry hentries (fun t ht => by
    have hinside := (Firmware.table_placed h ht).inside
    rw [space] at hinside
    omega) hi
  rw [hentry]
  by_cases hfadt : i = f.before.length
  · subst hfadt
    have htable : f.tables[f.before.length] = (f.fadtAddress, f.fadt) := by simp [Firmware.tables]
    have hactions := hs.searching (Nat.le_refl _)
    rw [← hactions] at h hn
    have hread := acpiReadRsdt_fadt h hn hfuel
    refine ⟨_, by rw [htable]; exact hread, hs.maps.mono ?_, fun hle => by omega, fun _ => ?_⟩
    · exact fun q hq => Acpi.subset_mapPages _ _ _ (s.subset_mapPages f.fadtAddress 1 hq)
    · rw [← hactions]
      exact f.found_enabled (s.mapPages_maps f.fadtAddress 1)
  · have hread : acpiReadRsdt m inw (fuel + 1) s f.tables[i].1 = some (s.mapPages f.tables[i].1 1) :=
      acpiReadRsdt_other (Firmware.table_other h hi hfadt) (Firmware.table_placed h (List.getElem_mem hi))
        fuel
    refine ⟨_, hread, hs.maps.mono (s.subset_mapPages _ _), fun hle => hs.searching (by omega), fun hlt => ?_⟩
    exact (hs.found (by omega)).mono _ _

theorem entries_eq {k : ℕ} (hk : 36 + 4 * k < space) : (36 + 4 * k + space - 36) % space / 4 = k := by
  simp only [space] at hk ⊢
  omega

/-- The loop over the entries. -/
theorem acpiReadRsdt_rsdt (h : f.At m inw s.actions rsdp) {n fuel : ℕ}
    (hn : (inw (s.actions ++ f.enabling) (numberAt f.fadt 64 4 % 65536) n).toNat % 2 = 1)
    (hfuel : n < fuel) :
    ∃ s', acpiReadRsdt m inw (fuel + 2) s (numberAt f.rsdp 16 4) = some s' ∧ f.Found s.actions s' := by
  have hread := h.rsdt.readsAt (s.mapPages_maps (numberAt f.rsdp 16 4) 1)
  have hsize := Firmware.rsdt_size h
  have htable : IsTable f.rsdt := ⟨by omega, Nat.le_of_eq h.rsdt_length⟩
  have hchecks : Checks f.rsdt := by
    rw [Checks, h.rsdt_length, List.take_length]
    exact h.rsdt_checks
  have hnot : ¬ facp <+: f.rsdt := fun hfacp =>
    absurd (List.prefix_of_prefix_length_le hfacp h.rsdt_signature (Nat.le_refl 4)) (by decide)
  obtain ⟨sum, hsum⟩ := exists_readSum hread htable.header
  have hfacp := hread.eq (show facp.length ≤ f.rsdt.length from Nat.le_trans (by decide) htable.header)
  have hrsdt := hread.eq
    (show rsdtSignature.length ≤ f.rsdt.length from Nat.le_trans (by decide) htable.header)
  have hlength := hread.number (show 4 + 4 ≤ f.rsdt.length by omega)
  have hfields : (numberAt f.rsdt 4 4 + space - 36) % space / 4 = f.tables.length := by
    have hinside := h.rsdt.inside
    rw [h.rsdt_length, hsize]
    exact entries_eq (by omega)
  have hstart : f.Walked s 0 (s.mapPages (numberAt f.rsdp 16 4) 1) :=
    ⟨s.mapPages_maps _ _, fun _ => rfl, fun hlt => absurd hlt (Nat.not_lt_zero _)⟩
  obtain ⟨s', hloop, hwalked⟩ : ∃ s', (List.range f.tables.length).foldlM (fun (s : Acpi) i => do
        let entry ← readNumber (s.byte m) 4 (numberAt f.rsdp 16 4 + 36 + 4 * i)
        acpiReadRsdt m inw (fuel + 1) s entry) (s.mapPages (numberAt f.rsdp 16 4) 1) = some s' ∧
      f.Walked s f.tables.length s' :=
    foldlM_range_invariant (I := f.Walked s)
      (fun i hi s' hs' => Firmware.Walked.entry h hn hfuel hi hs') hstart
  simp only [Option.bind_eq_bind] at hloop
  refine ⟨s', ?_, hwalked.found (by simp [Firmware.tables])⟩
  rw [acpiReadRsdt, acpiRsdtChecksum_eq htable hread]
  simp only [hchecks, hsum, hfacp, hnot, hrsdt, h.rsdt_signature, decide_true, decide_false, if_true,
    Bool.false_eq_true, if_false, Option.bind_eq_bind, Option.bind_some]
  rw [hlength, Option.bind_some, hfields]
  exact hloop

/-! ### From the firmware to the registers -/

/-- The writes that switch the machine off: the sleep type goes into bits 10 to 12 of the control
registers, next to the bit that starts the transition. -/
def Firmware.switchOff (f : Firmware) : List AcpiAction :=
  .outw (numberAt f.fadt 64 4 % 65536) ((8192 ||| f.package.typA.value.toNat * 1024) % 65536) ::
    if numberAt f.fadt 68 4 = 0 then []
    else [.outw (numberAt f.fadt 68 4 % 65536) ((8192 ||| f.package.typB.value.toNat * 1024) % 65536)]

def Firmware.reset (f : Firmware) : List AcpiAction :=
  resetAction (numberAt f.fadt 116 1) (numberAt f.fadt 120 8) (numberAt f.fadt 128 1)

theorem acpiShutdown_eq (h : f.At m inw actions rsdp) (hs : f.Found actions s) :
    acpiShutdown m s = some f.switchOff := by
  have hread := h.fadt_placed.readsAt hs.maps
  have hsize := h.fadt.size
  have hpm1a := hread.number (show 64 + 4 ≤ f.fadt.length by omega)
  have hpm1b := hread.number (show 68 + 4 ≤ f.fadt.length by omega)
  rw [acpiShutdown, hs.fadt, if_neg h.fadt_address, hpm1a, hpm1b, hs.typA, hs.typB]
  rfl

theorem acpiReboot_eq (h : f.At m inw actions rsdp) (hs : f.Found actions s) :
    acpiReboot m s = some f.reset := by
  have hread := h.fadt_placed.readsAt hs.maps
  have hsize := h.fadt.size
  have hspace := hread.number (show 116 + 1 ≤ f.fadt.length by omega)
  have haddress := hread.number (show 120 + 8 ≤ f.fadt.length by omega)
  have hvalue := hread.number (show 128 + 1 ≤ f.fadt.length by omega)
  rw [acpiReboot, hs.fadt, if_neg h.fadt_address, hspace, haddress, hvalue]
  rfl

/-- With tables in memory that lead to an FADT and a package `\_S5`, ACPI is enabled, and the calls that
switch the machine off and reset it write what the tables say. -/
theorem firmware_obeyed (m : Memory) (inw : Inw) (f : Firmware) (s : Acpi) (rsdp : ℕ)
    (h : f.At m inw s.actions rsdp) : ∃ least, ∀ fuel ≥ least, ∃ s',
      acpiInit m inw fuel s rsdp = some s' ∧ s'.actions = s.actions ++ f.setup ∧
      acpiShutdown m s' = some f.switchOff ∧ acpiReboot m s' = some f.reset := by
  obtain ⟨n, hn⟩ := h.enables
  refine ⟨n + 3, fun fuel hfuel => ?_⟩
  obtain ⟨k, rfl⟩ := Nat.exists_eq_add_of_le' hfuel
  have hread := h.pointer.readsAt (s.mapPages_maps rsdp 1)
  have hsum := hread.sum 0
  rw [h.pointer_length, h.pointer_checks] at hsum
  have hrsdt := hread.number (show 16 + 4 ≤ f.rsdp.length by rw [h.pointer_length])
  obtain ⟨s', hwalk, hfound⟩ := acpiReadRsdt_rsdt (s := s.mapPages rsdp 1) h hn
    (show n < k + n + 1 by omega)
  refine ⟨s', ?_, hfound.actions, acpiShutdown_eq h hfound, acpiReboot_eq h hfound⟩
  simp only [acpiInit, hsum, hrsdt, Option.bind_eq_bind, Option.bind_some]
  exact hwalk

/-! ### A small firmware -/

/-- With the byte for the checksum. -/
def balanced (bs : List UInt8) (k : ℕ) : List UInt8 := bs.set k (UInt8.ofNat (256 - (byteSum bs).toNat))

def tableHeader (signature : List UInt8) (length : ℕ) : List UInt8 :=
  signature ++ toBytes 4 length ++ List.replicate 28 0

/-- One FADT and one table behind it; the package has the sleep types 5 and 0. -/
def smallFirmware : Firmware where
  rsdp := balanced (List.replicate 16 0 ++ toBytes 4 8192) 8
  rsdtHeader := balanced (tableHeader rsdtSignature 44 ++ toBytes 4 12288 ++ toBytes 4 20480) 9 |>.take 36
  before := []
  fadtAddress := 12288
  fadt := balanced (tableHeader facp 132 ++ toBytes 4 0 ++ toBytes 4 16384 ++ [0, 0] ++ toBytes 2 9 ++
    toBytes 4 178 ++ 241 :: List.replicate 11 0 ++ toBytes 4 1540 ++ List.replicate 48 0 ++
    [1, 8, 0, 0] ++ toBytes 8 3321 ++ [15, 0, 0, 0]) 9
  after := [(20480, balanced (tableHeader [65, 80, 73, 67] 36) 9)]
  dsdt := balanced (tableHeader [68, 83, 68, 84] 48 ++ [95, 8] ++ s5 ++ [18, 10, 2, 10, 5, 0]) 9
  code := [95, 8]
  package := ⟨10, [], 2, .byte 5, .plain 0 (by decide), rfl⟩

def smallMemory : Memory := fun x =>
  (match x / 4096 with
    | 1 => smallFirmware.rsdp
    | 2 => smallFirmware.rsdt
    | 3 => smallFirmware.fadt
    | 4 => smallFirmware.dsdt
    | 5 => balanced (tableHeader [65, 80, 73, 67] 36) 9
    | _ => []).getD (x % 4096) 0

theorem bytesAt_page {k : ℕ} (hlen : bs.length ≤ 4096)
    (hpage : ∀ x, x / 4096 = k → m x = bs.getD (x % 4096) 0) : BytesAt m (4096 * k) bs := by
  intro i b hb
  obtain ⟨hi, -⟩ := List.getElem?_eq_some_iff.mp hb
  have hdiv : (4096 * k + i) / 4096 = k := by omega
  have hmod : (4096 * k + i) % 4096 = i := by omega
  dsimp only
  rw [hpage _ hdiv, hmod, List.getD, hb, Option.getD_some]

theorem smallFirmware_fadt : IsFadt smallFirmware.fadt where
  header := by decide +kernel
  length := by decide +kernel
  size := by decide +kernel
  checks := by decide +kernel
  signature := by decide +kernel

theorem smallFirmware_dsdt :
    IsDsdt smallFirmware.dsdt smallFirmware.code smallFirmware.package where
  header := by decide +kernel
  length := by decide +kernel
  checks := by decide +kernel
  package := by decide +kernel
  inside := by decide +kernel
  first := by decide +kernel

theorem smallFirmware_at :
    smallFirmware.At smallMemory (fun _ _ n => if n = 2 then 1 else 0) [] 4096 where
  pointer := ⟨bytesAt_page (k := 1) (by decide +kernel) fun x hx => by simp only [smallMemory, hx],
    by decide, by decide⟩
  pointer_length := by decide
  pointer_checks := by decide
  rsdt := ⟨bytesAt_page (k := 2) (by decide +kernel) fun x hx => by simp only [smallMemory, hx],
    by decide +kernel, by decide +kernel⟩
  rsdt_header := by decide +kernel
  rsdt_signature := by decide +kernel
  rsdt_length := by decide +kernel
  rsdt_checks := by decide +kernel
  others := by
    intro t ht
    obtain rfl : t = (20480, balanced (tableHeader [65, 80, 73, 67] 36) 9) := List.mem_singleton.mp ht
    exact ⟨⟨⟨by decide +kernel, by decide +kernel⟩, fun _ => by decide +kernel⟩,
      bytesAt_page (k := 5) (by decide +kernel) fun x hx => by simp only [smallMemory, hx],
      by decide +kernel, by decide +kernel⟩
  fadt := smallFirmware_fadt
  fadt_placed := ⟨bytesAt_page (k := 3) (by decide +kernel) fun x hx => by simp only [smallMemory, hx],
    by decide +kernel, by decide +kernel⟩
  fadt_address := by decide
  dsdt := smallFirmware_dsdt
  dsdt_placed := ⟨bytesAt_page (k := 4) (by decide +kernel) fun x hx => by simp only [smallMemory, hx],
    by decide +kernel, by decide +kernel⟩
  enables := ⟨2, rfl⟩

theorem firmware_obeyed_small : ∃ least, ∀ fuel ≥ least, ∃ s',
    acpiInit smallMemory (fun _ _ n => if n = 2 then 1 else 0) fuel ⟨[], 0, 0, 0, []⟩ 4096 = some s' ∧
      s'.actions = [.outb 178 241, .irqInstallHandler 9, .outw 1540 1] ∧
      acpiShutdown smallMemory s' = some [.outw 1540 13312] ∧
      acpiReboot smallMemory s' = some [.outb 3321 15] := by
  have hsetup : smallFirmware.setup = [.outb 178 241, .irqInstallHandler 9, .outw 1540 1] := by
    decide
  have hoff : smallFirmware.switchOff = [.outw 1540 13312] := by decide
  have hreset : smallFirmware.reset = [.outb 3321 15] := by decide
  obtain ⟨least, hleast⟩ := firmware_obeyed smallMemory _ smallFirmware ⟨[], 0, 0, 0, []⟩ 4096
    smallFirmware_at
  rw [hsetup, hoff, hreset] at hleast
  exact ⟨least, hleast⟩

end DosKernel.Boot
