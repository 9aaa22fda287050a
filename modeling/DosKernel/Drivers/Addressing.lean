import Mathlib.Tactic

/-! The addresses of sectors. `ide_do_sector` writes the number of a sector to the registers of a drive
in one of three forms, and the drive can tell from the registers which of them it is; `lba2chs` splits
the number for a floppy disk. -/

namespace DosKernel.Sectors

/-! ### The code -/

/-- The ports of a channel: `base`, `ctrl` and `bmide`, each with an offset. -/
inductive IoPort
  | base (offset : ℕ)
  | ctrl (offset : ℕ)
  | bmide (offset : ℕ)
  deriving DecidableEq

/-- Bytes put out to ports, in their order. -/
abbrev PortWrites := List (IoPort × UInt8)

/-- The `outb` of `ide_write`. -/
def ideOutb (reg : ℕ) (data : UInt8) : PortWrites :=
  if reg < 0x08 then [(.base (reg - 0x00), data)]
  else if reg < 0x0C then [(.base (reg - 0x06), data)]
  else if reg < 0x0E then [(.ctrl (reg - 0x0A), data)]
  else if reg < 0x16 then [(.bmide (reg - 0x0E), data)]
  else []

/-- `ide_write`. The registers from 8 on have the ports of others, and are told apart by a bit of
`ATA_REG_CONTROL`, which is set for them and cleared again. -/
def ideWrite (nIen : UInt8) (reg : ℕ) (data : UInt8) : PortWrites :=
  if reg > 0x07 ∧ reg < 0x0C then
    ideOutb 0x0C (0x80 ||| nIen) ++ ideOutb reg data ++ ideOutb 0x0C nIen
  else ideOutb reg data

inductive IOOperation
  | read
  | write

inductive LbaMode
  | chs
  | lba28
  | lba48
  deriving DecidableEq

/-- `lba_mode`, `_lba` and `head` in `ide_do_sector`. -/
structure SectorAddress where
  lbaMode : LbaMode
  lba : Fin 6 → UInt8
  head : UInt16

/-- The fields of `ide_device` that the address depends on. `ide_init` numbers the drives of a
channel with 0 and 1. -/
structure IdeDevice where
  drive : UInt8
  capabilities : UInt16
  drive_lt : drive < 2

def sectorAddress (capabilities : UInt16) (lba : UInt32) : SectorAddress :=
  if lba ≥ 0x10000000 then
    ⟨.lba48, ![((lba &&& 0xFF) >>> 0).toUInt8, ((lba &&& 0xFF00) >>> 8).toUInt8,
      ((lba &&& 0xFF0000) >>> 16).toUInt8, ((lba &&& 0xFF000000) >>> 24).toUInt8, 0, 0], 0⟩
  else if capabilities &&& 0x200 ≠ 0 then
    ⟨.lba28, ![((lba &&& 0xFF) >>> 0).toUInt8, ((lba &&& 0xFF00) >>> 8).toUInt8,
      ((lba &&& 0xFF0000) >>> 16).toUInt8, 0, 0, 0], ((lba &&& 0xF000000) >>> 24).toUInt16⟩
  else
    let sector : UInt16 := (lba % 63 + 1).toUInt16
    let cylinder : UInt16 := ((lba + 1 - sector.toUInt32) / (16 * 63)).toUInt16
    ⟨.chs, ![sector.toUInt8, ((cylinder >>> 0) &&& 0xFF).toUInt8, ((cylinder >>> 8) &&& 0xFF).toUInt8,
      0, 0, 0], ((lba + 1 - sector.toUInt32) % (16 * 63) / 63).toUInt16⟩

/-- `cmd`. -/
def ataCommand : LbaMode → (supportDma : Bool) → IOOperation → UInt8
  | .chs, false, .read => 0x20
  | .lba28, false, .read => 0x20
  | .lba48, false, .read => 0x24
  | .chs, true, .read => 0xC8
  | .lba28, true, .read => 0xC8
  | .lba48, true, .read => 0x25
  | .chs, false, .write => 0x30
  | .lba28, false, .write => 0x30
  | .lba48, false, .write => 0x34
  | .chs, true, .write => 0xCA
  | .lba28, true, .write => 0xCA
  | .lba48, true, .write => 0x35

/-- `ATA_REG_HDDEVSEL`. -/
def driveSelect (a : SectorAddress) (device : IdeDevice) : UInt8 :=
  ((if a.lbaMode = .chs then (0xA0 : UInt16) else 0xE0) ||| (device.drive.toUInt16 <<< 4) |||
    a.head).toUInt8

/-- The writes to the registers of an ATA drive once the form of the address is chosen. -/
def addressWrites (a : SectorAddress) (device : IdeDevice) (supportDma : Bool)
    (direction : IOOperation) (numberOfSectors : UInt16) (nIen : UInt8) : PortWrites :=
  ideWrite nIen 0x006 (driveSelect a device) ++
    ideWrite nIen 0x001 0 ++
    (if a.lbaMode = .lba48 then
      ideWrite nIen 0x008 0 ++ ideWrite nIen 0x009 (a.lba 3) ++ ideWrite nIen 0x00A (a.lba 4) ++
        ideWrite nIen 0x00B (a.lba 5)
    else []) ++
    ideWrite nIen 0x002 numberOfSectors.toUInt8 ++
    ideWrite nIen 0x003 (a.lba 0) ++
    ideWrite nIen 0x004 (a.lba 1) ++
    ideWrite nIen 0x005 (a.lba 2) ++
    ideWrite nIen 0x007 (ataCommand a.lbaMode supportDma direction)

/-- What `ide_do_sector` writes to the registers of an ATA drive. Without DMA it sets `n_ien` first;
with DMA it writes only to the ports of the bus master there, which are not listed. -/
def ideDoSector (direction : IOOperation) (device : IdeDevice) (supportDma : Bool) (nIen : UInt8)
    (lba : UInt32) (numberOfSectors : UInt16) : PortWrites :=
  let a := sectorAddress device.capabilities lba
  if supportDma then addressWrites a device true direction numberOfSectors nIen
  else ideWrite 0x02 0x00C 0x02 ++ addressWrites a device false direction numberOfSectors 0x02

structure Chs where
  cylinder : UInt8
  head : UInt8
  sector : UInt8

/-- `lba2chs` in `floppy.c`. -/
def lba2chs (lba : UInt32) (sectorsPerTrack : UInt8) : Chs where
  cylinder := (lba / (2 * sectorsPerTrack.toUInt32)).toUInt8
  head := (lba % (2 * sectorsPerTrack.toUInt32) / sectorsPerTrack.toUInt32).toUInt8
  sector := (lba % (2 * sectorsPerTrack.toUInt32) % sectorsPerTrack.toUInt32 + 1).toUInt8

/-- `lba2chs` in `lba2chs.py`. -/
def lba2chsPy (lba : ℤ) : ℤ × ℤ × ℤ := (lba / (2 * 18), lba / 18 % 2, lba % 18 + 1)

/-- `chs2lba` in `lba2chs.py`. -/
def chs2lbaPy (cylinder head sector : ℤ) : ℤ := (cylinder * 2 + head) * 18 + (sector - 1)

/-! ### The drive -/

/-- The bytes that were written to a register of the command block. -/
def written (w : PortWrites) (offset : ℕ) : List UInt8 :=
  (w.filter fun x => x.1 = .base offset).map Prod.snd

/-- A register has the byte that was written last, and keeps the one before it. -/
def current (w : PortWrites) (offset : ℕ) : ℕ := ((written w offset).getLastD 0).toNat

def previous (w : PortWrites) (offset : ℕ) : ℕ := ((written w offset).dropLast.getLastD 0).toNat

/-- The low bits of `ATA_REG_HDDEVSEL`. -/
def headOf (w : PortWrites) : ℕ := current w 6 % 16

/-- `LBA5` to `LBA0`. -/
def number48 (w : PortWrites) : ℕ :=
  current w 3 + 2 ^ 8 * current w 4 + 2 ^ 16 * current w 5 + 2 ^ 24 * previous w 3 +
    2 ^ 32 * previous w 4 + 2 ^ 40 * previous w 5

/-- The head and `LBA2` to `LBA0`. -/
def number28 (w : PortWrites) : ℕ :=
  current w 3 + 2 ^ 8 * current w 4 + 2 ^ 16 * current w 5 + 2 ^ 24 * headOf w

def cylinderOf (w : PortWrites) : ℕ := current w 4 + 2 ^ 8 * current w 5

def sectorOf (w : PortWrites) : ℕ := current w 3

def numberChs (w : PortWrites) : ℕ := (cylinderOf w * 16 + headOf w) * 63 + sectorOf w - 1

/-- The sector that the drive accesses: an extended command has 48 bits; otherwise a bit of
`ATA_REG_HDDEVSEL` tells. -/
def sectorNumber (w : PortWrites) : ℕ :=
  if current w 7 ∈ [0x24, 0x25, 0x34, 0x35] then number48 w
  else if current w 6 / 2 ^ 6 % 2 = 1 then number28 w
  else numberChs w

/-! ### The registers after the writes -/

section Registers
variable (a : SectorAddress) (device : IdeDevice) (supportDma : Bool) (direction : IOOperation)
  (numberOfSectors : UInt16) (nIen : UInt8) (lba : UInt32)

/-- The registers hold the address; with an extended command they keep its upper half. -/
structure Addressed (w : PortWrites) : Prop where
  lba : ∀ k : Fin 3, current w (k + 3) = (a.lba (k.castAdd 3)).toNat
  upper : a.lbaMode = .lba48 → ∀ k : Fin 3, previous w (k + 3) = (a.lba (k.natAdd 3)).toNat
  hddevsel : current w 6 = (driveSelect a device).toNat
  command : current w 7 = (ataCommand a.lbaMode supportDma direction).toNat

theorem written_append (v w : PortWrites) (offset : ℕ) :
    written (v ++ w) offset = written v offset ++ written w offset := by
  simp [written]

/-- The control register is at a port of its own. -/
theorem written_control (data : UInt8) (offset : ℕ) :
    written (ideWrite nIen 0x00C data) offset = [] := by
  simp [ideWrite, ideOutb, written]

theorem written_addressWrites_lba (k : Fin 3) :
    written (addressWrites a device supportDma direction numberOfSectors nIen) (k + 3) =
      (if a.lbaMode = .lba48 then [a.lba (k.natAdd 3)] else []) ++ [a.lba (k.castAdd 3)] := by
  unfold addressWrites
  fin_cases k <;> cases a.lbaMode <;> rfl

theorem written_addressWrites_hddevsel :
    written (addressWrites a device supportDma direction numberOfSectors nIen) 6 =
      [driveSelect a device] := by
  unfold addressWrites
  cases a.lbaMode <;> rfl

theorem written_addressWrites_command :
    written (addressWrites a device supportDma direction numberOfSectors nIen) 7 =
      [ataCommand a.lbaMode supportDma direction] := by
  unfold addressWrites
  cases a.lbaMode <;> rfl

theorem addressWrites_addressed : Addressed a device supportDma direction
    (addressWrites a device supportDma direction numberOfSectors nIen) where
  lba k := by
    rw [current, written_addressWrites_lba]
    simp
  upper h k := by
    rw [previous, written_addressWrites_lba, if_pos h]
    rfl
  hddevsel := by
    rw [current, written_addressWrites_hddevsel]
    rfl
  command := by
    rw [current, written_addressWrites_command]
    rfl

theorem ideDoSector_addressed :
    Addressed (sectorAddress device.capabilities lba) device supportDma direction
      (ideDoSector direction device supportDma nIen lba numberOfSectors) := by
  cases supportDma with
  | true => exact addressWrites_addressed _ _ _ _ _ _
  | false =>
    have h := addressWrites_addressed (sectorAddress device.capabilities lba) device false direction
      numberOfSectors 0x02
    have hw (offset : ℕ) :
        written (ideDoSector direction device false nIen lba numberOfSectors) offset =
          written (addressWrites (sectorAddress device.capabilities lba) device false direction
            numberOfSectors 0x02) offset := by
      rw [ideDoSector, if_neg (by decide), written_append, written_control, List.nil_append]
    constructor
    all_goals simp only [current, previous, hw]
    exacts [h.lba, h.upper, h.hddevsel, h.command]

end Registers

/-! ### Bytes of a number -/

theorem mask_shiftRight (n k w : ℕ) : (n &&& (2 ^ w - 1) <<< k) >>> k = n / 2 ^ k % 2 ^ w := by
  rw [Nat.shiftRight_and_distrib, Nat.shiftLeft_shiftRight, Nat.and_two_pow_sub_one_eq_mod,
    Nat.shiftRight_eq_div_pow]

theorem toNat_mask_shiftRight {mask shift : UInt32} {w : ℕ}
    (hmask : mask.toNat = (2 ^ w - 1) <<< shift.toNat) (hshift : shift.toNat < 32) (lba : UInt32) :
    ((lba &&& mask) >>> shift).toNat = lba.toNat / 2 ^ shift.toNat % 2 ^ w := by
  rw [UInt32.toNat_shiftRight, UInt32.toNat_and, hmask, Nat.mod_eq_of_lt hshift, mask_shiftRight]

theorem toNat_byte {mask shift : UInt32} (hmask : mask.toNat = (2 ^ 8 - 1) <<< shift.toNat)
    (hshift : shift.toNat < 32) (lba : UInt32) :
    ((lba &&& mask) >>> shift).toUInt8.toNat = lba.toNat / 2 ^ shift.toNat % 2 ^ 8 := by
  rw [UInt32.toNat_toUInt8, toNat_mask_shiftRight hmask hshift, Nat.mod_mod]

theorem toNat_head28 (lba : UInt32) :
    ((lba &&& 0xF000000) >>> 24).toUInt16.toNat = lba.toNat / 2 ^ 24 % 2 ^ 4 := by
  have hbits : ((lba &&& 0xF000000) >>> 24).toNat = lba.toNat / 2 ^ 24 % 2 ^ 4 :=
    toNat_mask_shiftRight rfl (by decide) lba
  rw [UInt32.toNat_toUInt16, hbits]
  omega

/-- Above the drive, `ATA_REG_HDDEVSEL` has the form of the address. -/
theorem toNat_driveSelect {a : SectorAddress} (h : a.head < 16) (device : IdeDevice) :
    (driveSelect a device).toNat =
      2 ^ 4 * ((if a.lbaMode = .chs then 10 else 14) + device.drive.toNat) + a.head.toNat := by
  have hd : device.drive.toNat < 2 := device.drive_lt
  have hh : a.head.toNat < 2 ^ 4 := h
  have hor (m : ℕ) (hm : m = 10 ∨ m = 14) :
      (m * 2 ^ 4) ||| device.drive.toNat <<< 4 ||| a.head.toNat =
        2 ^ 4 * (m + device.drive.toNat) + a.head.toNat := by
    have hm' : m ||| device.drive.toNat = m + device.drive.toNat := by
      obtain rfl | rfl := hm <;> interval_cases device.drive.toNat <;> rfl
    rw [← Nat.shiftLeft_eq, ← Nat.shiftLeft_or_distrib, ← Nat.shiftLeft_add_eq_or_of_lt hh, hm',
      Nat.shiftLeft_eq, Nat.mul_comm]
  have hshift : (device.drive.toUInt16 <<< 4).toNat = device.drive.toNat <<< 4 := by
    rw [UInt16.toNat_shiftLeft, UInt8.toNat_toUInt16, Nat.shiftLeft_eq, Nat.shiftLeft_eq]
    exact Nat.mod_eq_of_lt (by change _ * 2 ^ 4 < _; omega)
  rw [driveSelect, UInt16.toNat_toUInt8, UInt16.toNat_or, UInt16.toNat_or, hshift]
  split
  · rw [show (0xA0 : UInt16).toNat = 10 * 2 ^ 4 from rfl, hor 10 (.inl rfl)]
    exact Nat.mod_eq_of_lt (by omega)
  · rw [show (0xE0 : UInt16).toNat = 14 * 2 ^ 4 from rfl, hor 14 (.inr rfl)]
    exact Nat.mod_eq_of_lt (by omega)

/-! ### The three forms -/

section Forms
variable {lba : UInt32} {capabilities : UInt16}

/-- In every form the head has four bits. -/
theorem sectorAddress_head_lt (capabilities : UInt16) (lba : UInt32) :
    (sectorAddress capabilities lba).head < 16 := by
  unfold sectorAddress
  split_ifs
  · exact (by decide : (0 : UInt16) < 16)
  · change (UInt32.toUInt16 _).toNat < 16
    rw [toNat_head28]
    omega
  · change (UInt32.toUInt16 _).toNat < 16
    rw [UInt32.toNat_toUInt16, UInt32.toNat_div, UInt32.toNat_mod]
    change _ % 1008 / 63 % 2 ^ 16 < 16
    omega

theorem sectorAddress_lba48 (capabilities : UInt16) (h : 0x10000000 ≤ lba) :
    (sectorAddress capabilities lba).lbaMode = .lba48 ∧
    (sectorAddress capabilities lba).head = 0 ∧
    ∀ k, ((sectorAddress capabilities lba).lba k).toNat = lba.toNat / 2 ^ (8 * k.val) % 2 ^ 8 := by
  have hlt := lba.toNat_lt
  rw [sectorAddress, if_pos h]
  refine ⟨rfl, rfl, fun k => ?_⟩
  fin_cases k
  · exact toNat_byte rfl (by decide) lba
  · exact toNat_byte rfl (by decide) lba
  · exact toNat_byte rfl (by decide) lba
  · exact toNat_byte rfl (by decide) lba
  all_goals
    change 0 = _
    simp only [Nat.reduceMul, Nat.reducePow]
    omega

theorem sectorAddress_lba28 (h : lba < 0x10000000) (hc : capabilities &&& 0x200 ≠ 0) :
    (sectorAddress capabilities lba).lbaMode = .lba28 ∧
    (sectorAddress capabilities lba).head.toNat = lba.toNat / 2 ^ 24 ∧
    ∀ k : Fin 3, ((sectorAddress capabilities lba).lba (k.castAdd 3)).toNat =
      lba.toNat / 2 ^ (8 * k.val) % 2 ^ 8 := by
  have hlt : lba.toNat < 2 ^ 28 := h
  rw [sectorAddress, if_neg (UInt32.not_le.2 h), if_pos hc]
  refine ⟨rfl, ?_, fun k => ?_⟩
  · rw [toNat_head28]
    omega
  · fin_cases k
    · exact toNat_byte rfl (by decide) lba
    · exact toNat_byte rfl (by decide) lba
    · exact toNat_byte rfl (by decide) lba

theorem toNat_sector (lba : UInt32) : (lba % 63 + 1).toUInt16.toNat = lba.toNat % 63 + 1 := by
  rw [UInt32.toNat_toUInt16, UInt32.toNat_add, UInt32.toNat_mod]
  change (lba.toNat % 63 + 1) % 2 ^ 32 % 2 ^ 16 = _
  omega

theorem toNat_track (h : lba < 65536 * 1008) :
    (lba + 1 - (lba % 63 + 1).toUInt16.toUInt32).toNat = lba.toNat - lba.toNat % 63 := by
  have hlt : lba.toNat < 65536 * 1008 := h
  rw [UInt32.toNat_sub, UInt16.toNat_toUInt32, toNat_sector, UInt32.toNat_add]
  change (2 ^ 32 - _ + (lba.toNat + 1) % 2 ^ 32) % 2 ^ 32 = _
  omega

theorem toNat_cylinder (h : lba < 65536 * 1008) :
    ((lba + 1 - (lba % 63 + 1).toUInt16.toUInt32) / (16 * 63)).toUInt16.toNat = lba.toNat / 1008 := by
  have hlt : lba.toNat < 65536 * 1008 := h
  rw [UInt32.toNat_toUInt16, UInt32.toNat_div, toNat_track h]
  change (lba.toNat - lba.toNat % 63) / 1008 % 2 ^ 16 = _
  omega

theorem sectorAddress_chs (h : lba < 65536 * 1008) (hc : capabilities &&& 0x200 = 0) :
    (sectorAddress capabilities lba).lbaMode = .chs ∧
    (sectorAddress capabilities lba).head.toNat = lba.toNat / 63 % 16 ∧
    ((sectorAddress capabilities lba).lba 0).toNat = lba.toNat % 63 + 1 ∧
    ((sectorAddress capabilities lba).lba 1).toNat = lba.toNat / 1008 % 2 ^ 8 ∧
    ((sectorAddress capabilities lba).lba 2).toNat = lba.toNat / 1008 / 2 ^ 8 := by
  have hlt : lba.toNat < 65536 * 1008 := h
  have h28 : ¬ 0x10000000 ≤ lba := fun hle => by
    have : 0x10000000 ≤ lba.toNat := hle
    omega
  rw [sectorAddress, if_neg h28, if_neg (not_not.2 hc)]
  refine ⟨rfl, ?_, ?_, ?_, ?_⟩
  · change (UInt32.toUInt16 _).toNat = _
    rw [UInt32.toNat_toUInt16, UInt32.toNat_div, UInt32.toNat_mod, toNat_track h]
    change (lba.toNat - lba.toNat % 63) % 1008 / 63 % 2 ^ 16 = _
    omega
  · change (UInt16.toUInt8 _).toNat = _
    rw [UInt16.toNat_toUInt8, toNat_sector]
    omega
  · change (UInt16.toUInt8 _).toNat = _
    rw [UInt16.toNat_toUInt8, UInt16.toNat_and, UInt16.toNat_shiftRight, toNat_cylinder h]
    change ((lba.toNat / 1008) >>> 0 &&& (2 ^ 8 - 1)) % 2 ^ 8 = _
    rw [Nat.and_two_pow_sub_one_eq_mod, Nat.mod_mod, Nat.shiftRight_zero]
  · change (UInt16.toUInt8 _).toNat = _
    rw [UInt16.toNat_toUInt8, UInt16.toNat_and, UInt16.toNat_shiftRight, toNat_cylinder h]
    change ((lba.toNat / 1008) >>> 8 &&& (2 ^ 8 - 1)) % 2 ^ 8 = _
    rw [Nat.and_two_pow_sub_one_eq_mod, Nat.mod_mod, Nat.shiftRight_eq_div_pow]
    exact Nat.mod_eq_of_lt (by omega)

end Forms

/-! ### Back to the number -/

section Decoded
variable {a : SectorAddress} {device : IdeDevice} {supportDma : Bool} {direction : IOOperation}
  {w : PortWrites}

theorem Addressed.headOf (h : Addressed a device supportDma direction w) (hhead : a.head < 16) :
    headOf w = a.head.toNat := by
  have hlt : a.head.toNat < 16 := hhead
  rw [Sectors.headOf, h.hddevsel, toNat_driveSelect hhead]
  omega

theorem Addressed.driveBit (h : Addressed a device supportDma direction w) (hhead : a.head < 16) :
    current w 6 / 2 ^ 4 % 2 = device.drive.toNat := by
  have hlt : a.head.toNat < 16 := hhead
  have hd : device.drive.toNat < 2 := device.drive_lt
  rw [h.hddevsel, toNat_driveSelect hhead]
  split <;> omega

/-- The drive takes the number in the form that was chosen. -/
theorem Addressed.sectorNumber (h : Addressed a device supportDma direction w) (hhead : a.head < 16) :
    sectorNumber w = match a.lbaMode with
      | .lba48 => number48 w
      | .lba28 => number28 w
      | .chs => numberChs w := by
  have hlt : a.head.toNat < 16 := hhead
  have hd : device.drive.toNat < 2 := device.drive_lt
  have hselect := toNat_driveSelect hhead device
  rw [Sectors.sectorNumber, h.command, h.hddevsel]
  cases hm : a.lbaMode with
  | lba48 => cases supportDma <;> cases direction <;> rfl
  | lba28 =>
    rw [hm, if_neg (by decide)] at hselect
    rw [if_neg (by cases supportDma <;> cases direction <;> decide), if_pos (by omega)]
  | chs =>
    rw [hm, if_pos rfl] at hselect
    rw [if_neg (by cases supportDma <;> cases direction <;> decide), if_neg (by omega)]

end Decoded

section Drive
variable (direction : IOOperation) (device : IdeDevice) (supportDma : Bool) (nIen : UInt8)
  (lba : UInt32) (numberOfSectors : UInt16)

theorem driveBit_ideDoSector :
    current (ideDoSector direction device supportDma nIen lba numberOfSectors) 6 / 2 ^ 4 % 2 =
      device.drive.toNat :=
  (ideDoSector_addressed device supportDma direction numberOfSectors nIen lba).driveBit
    (sectorAddress_head_lt _ _)

theorem sectorNumber_ideDoSector :
    sectorNumber (ideDoSector direction device supportDma nIen lba numberOfSectors) =
      match (sectorAddress device.capabilities lba).lbaMode with
      | .lba48 => number48 (ideDoSector direction device supportDma nIen lba numberOfSectors)
      | .lba28 => number28 (ideDoSector direction device supportDma nIen lba numberOfSectors)
      | .chs => numberChs (ideDoSector direction device supportDma nIen lba numberOfSectors) :=
  (ideDoSector_addressed device supportDma direction numberOfSectors nIen lba).sectorNumber
    (sectorAddress_head_lt _ _)

theorem number48_ideDoSector (h : 0x10000000 ≤ lba) :
    number48 (ideDoSector direction device supportDma nIen lba numberOfSectors) = lba.toNat := by
  have hlt := lba.toNat_lt
  have hw := ideDoSector_addressed device supportDma direction numberOfSectors nIen lba
  obtain ⟨hmode, -, hlba⟩ := sectorAddress_lba48 device.capabilities h
  have h0 : current _ 3 = lba.toNat / 2 ^ 0 % 2 ^ 8 := (hw.lba 0).trans (hlba 0)
  have h1 : current _ 4 = lba.toNat / 2 ^ 8 % 2 ^ 8 := (hw.lba 1).trans (hlba 1)
  have h2 : current _ 5 = lba.toNat / 2 ^ 16 % 2 ^ 8 := (hw.lba 2).trans (hlba 2)
  have h3 : previous _ 3 = lba.toNat / 2 ^ 24 % 2 ^ 8 := (hw.upper hmode 0).trans (hlba 3)
  have h4 : previous _ 4 = lba.toNat / 2 ^ 32 % 2 ^ 8 := (hw.upper hmode 1).trans (hlba 4)
  have h5 : previous _ 5 = lba.toNat / 2 ^ 40 % 2 ^ 8 := (hw.upper hmode 2).trans (hlba 5)
  rw [number48, h0, h1, h2, h3, h4, h5]
  omega

theorem number28_ideDoSector (h : lba < 0x10000000) (hc : device.capabilities &&& 0x200 ≠ 0) :
    number28 (ideDoSector direction device supportDma nIen lba numberOfSectors) = lba.toNat := by
  have hlt : lba.toNat < 2 ^ 28 := h
  have hw := ideDoSector_addressed device supportDma direction numberOfSectors nIen lba
  obtain ⟨-, hhead, hlba⟩ := sectorAddress_lba28 h hc
  have h0 : current _ 3 = lba.toNat / 2 ^ 0 % 2 ^ 8 := (hw.lba 0).trans (hlba 0)
  have h1 : current _ 4 = lba.toNat / 2 ^ 8 % 2 ^ 8 := (hw.lba 1).trans (hlba 1)
  have h2 : current _ 5 = lba.toNat / 2 ^ 16 % 2 ^ 8 := (hw.lba 2).trans (hlba 2)
  rw [number28, h0, h1, h2, hw.headOf (sectorAddress_head_lt _ _), hhead]
  omega

theorem numberChs_ideDoSector (h : lba < 65536 * 1008) (hc : device.capabilities &&& 0x200 = 0) :
    numberChs (ideDoSector direction device supportDma nIen lba numberOfSectors) = lba.toNat ∧
    sectorOf (ideDoSector direction device supportDma nIen lba numberOfSectors) =
      lba.toNat % 63 + 1 := by
  have hlt : lba.toNat < 65536 * 1008 := h
  have hw := ideDoSector_addressed device supportDma direction numberOfSectors nIen lba
  obtain ⟨-, hhead, hsector, hlow, hhigh⟩ := sectorAddress_chs h hc
  have h0 : current _ 3 = lba.toNat % 63 + 1 := (hw.lba 0).trans hsector
  have h1 : current _ 4 = lba.toNat / 1008 % 2 ^ 8 := (hw.lba 1).trans hlow
  have h2 : current _ 5 = lba.toNat / 1008 / 2 ^ 8 := (hw.lba 2).trans hhigh
  refine ⟨?_, h0⟩
  rw [numberChs, cylinderOf, sectorOf, h0, h1, h2, hw.headOf (sectorAddress_head_lt _ _), hhead]
  omega

end Drive

/-! ### The floppy disk -/

section Floppy
variable {sectorsPerTrack : UInt8} {lba : UInt32}

theorem toNat_lba2chs (hspt : 1 ≤ sectorsPerTrack) (h : lba.toNat < 512 * sectorsPerTrack.toNat) :
    (lba2chs lba sectorsPerTrack).cylinder.toNat = lba.toNat / (2 * sectorsPerTrack.toNat) ∧
    (lba2chs lba sectorsPerTrack).head.toNat =
      lba.toNat % (2 * sectorsPerTrack.toNat) / sectorsPerTrack.toNat ∧
    (lba2chs lba sectorsPerTrack).sector.toNat = lba.toNat % sectorsPerTrack.toNat + 1 := by
  have hpos : 0 < sectorsPerTrack.toNat := hspt
  have hlt := sectorsPerTrack.toNat_lt
  have htwo : (2 * sectorsPerTrack.toUInt32).toNat = 2 * sectorsPerTrack.toNat := by
    rw [UInt32.toNat_mul, UInt8.toNat_toUInt32]
    exact Nat.mod_eq_of_lt (by change 2 * _ < _; omega)
  have hmod : lba.toNat % sectorsPerTrack.toNat < sectorsPerTrack.toNat := Nat.mod_lt _ hpos
  have hmod2 : lba.toNat % (2 * sectorsPerTrack.toNat) < sectorsPerTrack.toNat * 2 := by
    rw [Nat.mul_comm]
    exact Nat.mod_lt _ (by omega)
  refine ⟨?_, ?_, ?_⟩
  · rw [lba2chs, UInt32.toNat_toUInt8, UInt32.toNat_div, htwo]
    exact Nat.mod_eq_of_lt (Nat.div_lt_of_lt_mul (by omega))
  · rw [lba2chs, UInt32.toNat_toUInt8, UInt32.toNat_div, UInt32.toNat_mod, htwo, UInt8.toNat_toUInt32]
    have hhead := Nat.div_lt_of_lt_mul hmod2
    exact Nat.mod_eq_of_lt (by omega)
  · rw [lba2chs, UInt32.toNat_toUInt8, UInt32.toNat_add, UInt32.toNat_mod, UInt32.toNat_mod, htwo,
      UInt8.toNat_toUInt32, Nat.mod_mod_of_dvd _ (Nat.dvd_mul_left _ _)]
    change (_ + 1) % 2 ^ 32 % 2 ^ 8 = _
    omega

theorem lba2chs_bounds (hspt : 1 ≤ sectorsPerTrack) (h : lba.toNat < 512 * sectorsPerTrack.toNat) :
    (lba2chs lba sectorsPerTrack).head.toNat < 2 ∧ 1 ≤ (lba2chs lba sectorsPerTrack).sector.toNat ∧
    (lba2chs lba sectorsPerTrack).sector.toNat ≤ sectorsPerTrack.toNat := by
  have hpos : 0 < sectorsPerTrack.toNat := hspt
  obtain ⟨-, hhead, hsector⟩ := toNat_lba2chs hspt h
  have hmod : lba.toNat % (2 * sectorsPerTrack.toNat) < sectorsPerTrack.toNat * 2 := by
    rw [Nat.mul_comm]
    exact Nat.mod_lt _ (by omega)
  have hmod1 := Nat.mod_lt lba.toNat hpos
  rw [hhead, hsector]
  exact ⟨Nat.div_lt_of_lt_mul hmod, by omega, by omega⟩

theorem lba2chs_number (hspt : 1 ≤ sectorsPerTrack) (h : lba.toNat < 512 * sectorsPerTrack.toNat) :
    ((lba2chs lba sectorsPerTrack).cylinder.toNat * 2 + (lba2chs lba sectorsPerTrack).head.toNat) *
      sectorsPerTrack.toNat + (lba2chs lba sectorsPerTrack).sector.toNat - 1 = lba.toNat := by
  obtain ⟨hcylinder, hhead, hsector⟩ := toNat_lba2chs hspt h
  have hdiv := Nat.div_add_mod lba.toNat (2 * sectorsPerTrack.toNat)
  have hdiv1 := Nat.div_add_mod (lba.toNat % (2 * sectorsPerTrack.toNat)) sectorsPerTrack.toNat
  rw [Nat.mod_mod_of_dvd _ (Nat.dvd_mul_left _ _)] at hdiv1
  rw [hcylinder, hhead, hsector]
  calc
    _ = 2 * sectorsPerTrack.toNat * (lba.toNat / (2 * sectorsPerTrack.toNat)) +
        (sectorsPerTrack.toNat * (lba.toNat % (2 * sectorsPerTrack.toNat) / sectorsPerTrack.toNat) +
          lba.toNat % sectorsPerTrack.toNat) := by
      rw [← Nat.add_assoc, Nat.add_sub_cancel]
      ring
    _ = lba.toNat := by rw [hdiv1, hdiv]

/-- The two programs agree on the disks of `lba2chs.py`. -/
theorem lba2chs_eq_lba2chsPy (h : lba.toNat < 512 * 18) :
    lba2chsPy lba.toNat = (((lba2chs lba 18).cylinder.toNat : ℤ), ((lba2chs lba 18).head.toNat : ℤ),
      ((lba2chs lba 18).sector.toNat : ℤ)) := by
  have hspt : (1 : UInt8) ≤ 18 := by decide
  obtain ⟨hcylinder, hhead, hsector⟩ := toNat_lba2chs hspt h
  rw [hcylinder, hhead, hsector, lba2chsPy]
  refine Prod.ext ?_ (Prod.ext ?_ ?_)
  · change (lba.toNat : ℤ) / (2 * 18) = (lba.toNat / 36 : ℕ)
    omega
  · change (lba.toNat : ℤ) / 18 % 2 = (lba.toNat % 36 / 18 : ℕ)
    omega
  · change (lba.toNat : ℤ) % 18 + 1 = (lba.toNat % 18 + 1 : ℕ)
    omega

theorem chs2lbaPy_lba2chsPy (n : ℤ) :
    chs2lbaPy (lba2chsPy n).1 (lba2chsPy n).2.1 (lba2chsPy n).2.2 = n := by
  change (n / (2 * 18) * 2 + n / 18 % 2) * 18 + (n % 18 + 1 - 1) = n
  omega

end Floppy

/-! ### Sector addressing is invertible -/

theorem sectorAddressing_invertible :
    (∀ (direction : IOOperation) (device : IdeDevice) (supportDma : Bool) (nIen : UInt8)
        (lba : UInt32) (numberOfSectors : UInt16),
      let w := ideDoSector direction device supportDma nIen lba numberOfSectors
      (0x10000000 ≤ lba → number48 w = lba.toNat ∧ sectorNumber w = lba.toNat) ∧
      (lba < 0x10000000 → device.capabilities &&& 0x200 ≠ 0 →
        number28 w = lba.toNat ∧ sectorNumber w = lba.toNat) ∧
      (lba < 65536 * 1008 → device.capabilities &&& 0x200 = 0 →
        (numberChs w = lba.toNat ∧ sectorNumber w = lba.toNat) ∧
          (sectorAddress device.capabilities lba).head < 16 ∧
          headOf w = (sectorAddress device.capabilities lba).head.toNat ∧
          1 ≤ sectorOf w ∧ sectorOf w ≤ 63)) ∧
    (∀ (sectorsPerTrack : UInt8) (lba : UInt32), 1 ≤ sectorsPerTrack →
      lba.toNat < 512 * sectorsPerTrack.toNat →
      let c := lba2chs lba sectorsPerTrack
      (c.head.toNat < 2 ∧ 1 ≤ c.sector.toNat ∧ c.sector.toNat ≤ sectorsPerTrack.toNat) ∧
      (c.cylinder.toNat * 2 + c.head.toNat) * sectorsPerTrack.toNat + c.sector.toNat - 1 = lba.toNat) ∧
    ∀ lba : UInt32, lba.toNat < 512 * 18 →
      let c := lba2chs lba 18
      lba2chsPy lba.toNat = ((c.cylinder.toNat : ℤ), (c.head.toNat : ℤ), (c.sector.toNat : ℤ)) ∧
      chs2lbaPy c.cylinder.toNat c.head.toNat c.sector.toNat = lba.toNat := by
  refine ⟨fun direction device supportDma nIen lba numberOfSectors => ⟨fun h => ?_, fun h hc => ?_,
    fun h hc => ?_⟩, fun sectorsPerTrack lba hspt h => ⟨lba2chs_bounds hspt h, lba2chs_number hspt h⟩,
    fun lba h => ⟨lba2chs_eq_lba2chsPy h, ?_⟩⟩
  · have hnumber := number48_ideDoSector direction device supportDma nIen lba numberOfSectors h
    refine ⟨hnumber, ?_⟩
    rw [sectorNumber_ideDoSector, (sectorAddress_lba48 device.capabilities h).1]
    exact hnumber
  · have hnumber := number28_ideDoSector direction device supportDma nIen lba numberOfSectors h hc
    refine ⟨hnumber, ?_⟩
    rw [sectorNumber_ideDoSector, (sectorAddress_lba28 h hc).1]
    exact hnumber
  · obtain ⟨hnumber, hsector⟩ :=
      numberChs_ideDoSector direction device supportDma nIen lba numberOfSectors h hc
    have hw := ideDoSector_addressed device supportDma direction numberOfSectors nIen lba
    have hlt := sectorAddress_head_lt device.capabilities lba
    refine ⟨⟨hnumber, ?_⟩, hlt, hw.headOf hlt, by omega, by omega⟩
    rw [sectorNumber_ideDoSector, (sectorAddress_chs h hc).1]
    exact hnumber
  · have hback := chs2lbaPy_lba2chsPy lba.toNat
    rwa [lba2chs_eq_lba2chsPy h] at hback

theorem sectorAddressing_invertible_numbers :
    sectorNumber (ideDoSector .read ⟨0, 0x200, by decide⟩ true 0 0x12345678 1) = 0x12345678 ∧
    sectorNumber (ideDoSector .write ⟨1, 0x200, by decide⟩ false 0 0x2345678 1) = 0x2345678 ∧
    sectorNumber (ideDoSector .read ⟨0, 0, by decide⟩ false 0 1000000 8) = 1000000 ∧
    ((lba2chs 2879 18).cylinder.toNat * 2 + (lba2chs 2879 18).head.toNat) * 18 +
      (lba2chs 2879 18).sector.toNat - 1 = 2879 ∧
    lba2chsPy 2879 = (((lba2chs 2879 18).cylinder.toNat : ℤ), ((lba2chs 2879 18).head.toNat : ℤ),
      ((lba2chs 2879 18).sector.toNat : ℤ)) := by
  obtain ⟨hide, hfloppy, hpy⟩ := sectorAddressing_invertible
  exact ⟨((hide .read ⟨0, 0x200, by decide⟩ true 0 0x12345678 1).1 (by decide)).2,
    ((hide .write ⟨1, 0x200, by decide⟩ false 0 0x2345678 1).2.1 (by decide) (by decide)).2,
    ((hide .read ⟨0, 0, by decide⟩ false 0 1000000 8).2.2 (by decide) (by decide)).1.2,
    (hfloppy 18 2879 (by decide) (by decide)).2, (hpy 2879 (by decide)).1⟩

end DosKernel.Sectors
