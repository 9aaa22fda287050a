import DosKernel.Fs.Ext2Contents
import DosKernel.Fs.Sequential

/-! Blocks that are read with up to three attempts at a sector. `ext2_read_block` repeats its
attempt at the same address, which it computes from a 32-bit product; `iso9660_read_block` moves
on by a sector with every attempt, and begins at the number of the block, which counts sectors of
2048 bytes, as if it counted the sectors of the drive. -/

namespace DosKernel

open Lib

namespace IoDriver

/-- The same drive with other contents. -/
def holding (d : IoDriver) (c : ℕ → ℕ → UInt8) : IoDriver := { d with sector := c }

variable (d : IoDriver)

/-- The sector that a series of attempts comes to when each of them moves on by one. -/
def landing : (tries lba : ℕ) → Option ℕ
  | 0, _ => none
  | tries + 1, lba => if d.fails (lba % word32) tries then landing tries (lba + 1) else some lba

/-- The sectors that the series of attempts for a block come to. -/
def landings : (passes lba : ℕ) → Option (List ℕ)
  | 0, _ => some []
  | passes + 1, lba => (d.landing 3 lba).bind fun a => (landings passes (a + 1)).map (a :: ·)

/-- Three attempts in a row fail, each a sector behind the last one, before as many sectors as
there are passes were read. -/
def GivesUp : (passes lba : ℕ) → Prop
  | 0, _ => False
  | passes + 1, lba => match d.landing 3 lba with
    | none => True
    | some a => GivesUp passes (a + 1)

variable {d} {tries passes lba s : ℕ}

theorem tryRead_one (tries lba : ℕ) : d.tryRead 1 tries lba =
    (d.landing tries lba).map fun a => (d.sector (a % word32), a) := by
  induction tries generalizing lba with
  | zero => rfl
  | succ tries ih =>
    rw [tryRead, landing, readSector]
    cases d.fails (lba % word32) tries with
    | false => rfl
    | true => exact ih (lba + 1)

theorem readSectors_one (passes lba : ℕ) : d.readSectors 1 passes lba =
    (d.landings passes lba).map (List.map fun a => d.sector (a % word32)) := by
  induction passes generalizing lba with
  | zero => rfl
  | succ passes ih =>
    rw [IoDriver.readSectors, landings, tryRead_one]
    cases d.landing 3 lba with
    | none => rfl
    | some a =>
      rw [Option.map_some, Option.bind_some, Option.bind_some, ih, Option.map_map, Option.map_map]
      rfl

theorem le_of_landing {a : ℕ} (h : d.landing tries lba = some a) : lba ≤ a := by
  induction tries generalizing lba with
  | zero => cases h
  | succ tries ih =>
    rw [landing] at h
    split_ifs at h
    · exact (Nat.le_succ lba).trans (ih h)
    · exact (Option.some.inj h).le

/-- A landing `s` sectors on: the attempts before it fail. -/
theorem landing_eq_some : d.landing tries lba = some (lba + s) ↔ s < tries ∧
    (∀ i < s, d.fails ((lba + i) % word32) (tries - 1 - i) = true) ∧
      d.fails ((lba + s) % word32) (tries - 1 - s) = false := by
  induction tries generalizing lba s with
  | zero => simp [landing]
  | succ tries ih =>
    rw [landing, Nat.add_sub_cancel]
    cases s with
    | zero =>
      cases hfails : d.fails (lba % word32) tries with
      | false => simp
      | true =>
        have hne : d.landing tries (lba + 1) ≠ some lba := fun h => absurd (le_of_landing h) (by omega)
        simp [hne]
    | succ s =>
      have hshift : (∀ i < s + 1, d.fails ((lba + i) % word32) (tries - i) = true) ↔
          d.fails (lba % word32) tries = true ∧
            ∀ i < s, d.fails ((lba + 1 + i) % word32) (tries - 1 - i) = true := by
        constructor
        · refine fun h => ⟨h 0 (Nat.succ_pos _), fun i hi => ?_⟩
          rw [Nat.add_assoc, Nat.sub_sub, Nat.add_comm 1]
          exact h (i + 1) (Nat.succ_lt_succ hi)
        · rintro ⟨hfirst, hrest⟩ i hi
          cases i with
          | zero => exact hfirst
          | succ i =>
            have := hrest i (Nat.lt_of_succ_lt_succ hi)
            rwa [Nat.add_assoc, Nat.sub_sub, Nat.add_comm 1] at this
      rw [hshift, show lba + (s + 1) = lba + 1 + s by omega, show tries - (s + 1) = tries - 1 - s by omega]
      cases hfails : d.fails (lba % word32) tries with
      | false => simp; omega
      | true =>
        rw [if_pos rfl, ih]
        simp

/-- A landing on a sector, which the numbers come to without a wrap. -/
theorem landing_mod {first a : ℕ} (hle : lba ≤ first) (hfirst : first < word32)
    (h : d.landing 3 (lba + word32) = some a) (hmod : a % word32 = first) :
    a = first + word32 := by
  obtain ⟨s, rfl⟩ := Nat.exists_eq_add_of_le (le_of_landing h)
  have hs := (landing_eq_some.mp h).1
  rw [word32] at *
  omega

/-- The landings for a block on its own sectors. -/
theorem landings_succ_eq {first : ℕ} (hle : lba ≤ first) (hfirst : first < word32) :
    (d.landings (passes + 1) (lba + word32)).map (List.map (· % word32)) =
        some (List.range' first (passes + 1)) ↔
      d.landing 3 (lba + word32) = some (first + word32) ∧
        (d.landings passes (first + 1 + word32)).map (List.map (· % word32)) =
          some (List.range' (first + 1) passes) := by
  have hmod : (first + word32) % word32 = first := by
    rw [Nat.add_mod_right, Nat.mod_eq_of_lt hfirst]
  have hnext : first + word32 + 1 = first + 1 + word32 := by omega
  rw [landings, List.range'_succ]
  constructor
  · intro h
    obtain ⟨l, hl, hmap⟩ := Option.map_eq_some_iff.mp h
    obtain ⟨a, ha, hrest⟩ := Option.bind_eq_some_iff.mp hl
    obtain ⟨l', hl', rfl⟩ := Option.map_eq_some_iff.mp hrest
    rw [List.map_cons] at hmap
    obtain ⟨hhead, htail⟩ := List.cons.inj hmap
    obtain rfl := landing_mod hle hfirst ha hhead
    rw [hnext] at hl'
    exact ⟨ha, Option.map_eq_some_iff.mpr ⟨l', hl', htail⟩⟩
  · rintro ⟨ha, h⟩
    obtain ⟨l, hl, hmap⟩ := Option.map_eq_some_iff.mp h
    rw [ha, Option.bind_some, hnext, hl, Option.map_some, Option.map_some, List.map_cons, hmap, hmod]

/-- No first attempt fails. -/
theorem landings_straight {first : ℕ} (hend : first + passes ≤ word32) :
    (d.landings passes (first + word32)).map (List.map (· % word32)) =
        some (List.range' first passes) ↔
      ∀ s < passes, d.fails (first + s) 2 = false := by
  induction passes generalizing first with
  | zero => simp [landings]
  | succ passes ih =>
    have hland : d.landing 3 (first + word32) = some (first + word32) ↔ d.fails first 2 = false := by
      have h : d.landing 3 (first + word32) = some (first + word32 + 0) ↔ _ := landing_eq_some
      rw [Nat.add_zero, Nat.add_mod_right, Nat.mod_eq_of_lt (by omega)] at h
      simpa using h
    rw [landings_succ_eq le_rfl (by omega), hland, ih (by omega)]
    constructor
    · rintro ⟨hfirst, hrest⟩ s hs
      cases s with
      | zero => exact hfirst
      | succ s =>
        rw [Nat.add_comm s, ← Nat.add_assoc]
        exact hrest s (by omega)
    · refine fun h => ⟨h 0 (by omega), fun s hs => ?_⟩
      rw [Nat.add_assoc, Nat.add_comm 1]
      exact h (s + 1) (by omega)

theorem landing_holding (c : ℕ → ℕ → UInt8) (tries lba : ℕ) :
    (d.holding c).landing tries lba = d.landing tries lba := by
  induction tries generalizing lba with
  | zero => rfl
  | succ tries ih =>
    rw [landing, landing, ih]
    rfl

theorem landings_holding (c : ℕ → ℕ → UInt8) (passes lba : ℕ) :
    (d.holding c).landings passes lba = d.landings passes lba := by
  induction passes generalizing lba with
  | zero => rfl
  | succ passes ih => simp only [landings, landing_holding, ih]

theorem landings_length {l : List ℕ} (h : d.landings passes lba = some l) : l.length = passes := by
  induction passes generalizing lba l with
  | zero =>
    cases h
    rfl
  | succ passes ih =>
    obtain ⟨a, -, hrest⟩ := Option.bind_eq_some_iff.mp h
    obtain ⟨l, hl, rfl⟩ := Option.map_eq_some_iff.mp hrest
    rw [List.length_cons, ih hl]

theorem landings_eq_none : d.landings passes lba = none ↔ d.GivesUp passes lba := by
  induction passes generalizing lba with
  | zero => simp [landings, GivesUp]
  | succ passes ih =>
    rw [landings, GivesUp]
    cases d.landing 3 lba with
    | none => simp
    | some a => simp [ih]

end IoDriver

theorem IoDriver.buffer_map {d : IoDriver} {size j : ℕ} (tail : ℕ → UInt8) {l : List ℕ}
    (c : ℕ → ℕ → UInt8) (hj : j / d.sectorSize < l.length) (hsize : j < size) :
    d.buffer tail size (l.map c) j = c l[j / d.sectorSize] (j % d.sectorSize) := by
  rw [buffer, if_pos hsize]
  simp [List.getD_eq_getElem?_getD, hj]

/-- Whatever the drive holds, an intact block is read as it is stored, and no other one is read. -/
def BlockRead (size : ℕ) (intact : Prop) (stored : (ℕ → ℕ → UInt8) → ℕ → UInt8)
    (read : (ℕ → ℕ → UInt8) → Option (ℕ → UInt8)) : Prop :=
  ∀ c, (intact → ∃ block, read c = some block ∧ ∀ j < size, block j = stored c j) ∧
    (¬ intact → read c = none)

/-- A block is read right if the sectors in the buffer are those of the block. -/
theorem blockRead_iff {d : IoDriver} {size first : ℕ} {intact : Prop} (tail : ℕ → UInt8)
    {sectors : Option (List ℕ)} (hdvd : d.sectorSize ∣ size)
    (hlen : ∀ l, sectors = some l → l.length = size / d.sectorSize) :
    BlockRead size intact (fun c j => c (first + j / d.sectorSize) (j % d.sectorSize))
        (fun c => sectors.map fun l => d.buffer tail size (l.map c)) ↔
      (intact → sectors = some (List.range' first (size / d.sectorSize))) ∧
        (¬ intact → sectors = none) := by
  have hpos := d.sectorSize_pos
  constructor
  · intro h
    refine ⟨fun hintact => ?_, fun hnot => Option.map_eq_none_iff.mp ((h fun _ _ => 0).2 hnot)⟩
    cases hs : sectors with
    | none =>
      obtain ⟨block, hread, -⟩ := (h fun _ _ => 0).1 hintact
      rw [hs] at hread
      cases hread
    | some l =>
      have hl := hlen l hs
      congr 1
      refine List.ext_getElem (by simp [hl]) fun k hk _ => ?_
      -- a drive on which this sector differs from all others
      obtain ⟨block, hread, hblock⟩ := (h fun a _ => if a = first + k then 1 else 0).1 hintact
      rw [hs] at hread
      have hdiv : k * d.sectorSize / d.sectorSize = k := Nat.mul_div_cancel _ hpos
      have hlt : k * d.sectorSize < size := by
        rw [hl] at hk
        exact (Nat.mul_lt_mul_of_pos_right hk hpos).trans_le (Nat.div_mul_le_self _ _)
      have hval := hblock (k * d.sectorSize) hlt
      rw [← Option.some.inj hread] at hval
      dsimp only at hval
      rw [IoDriver.buffer_map tail _ (by rwa [hdiv]) hlt] at hval
      simp only [hdiv, if_true] at hval
      have hsector : l[k] = first + k := by
        by_contra hne
        rw [if_neg hne] at hval
        exact absurd hval (by decide)
      rw [hsector]
      simp
  · rintro ⟨hsome, hnone⟩ c
    refine ⟨fun hintact => ⟨_, by rw [hsome hintact]; rfl, fun j hj => ?_⟩,
      fun hnot => by rw [hnone hnot]; rfl⟩
    have hlt : j / d.sectorSize < size / d.sectorSize := Nat.div_lt_div_of_lt_of_dvd hdvd hj
    dsimp only
    rw [IoDriver.buffer_map tail _ (by simpa using hlt) hj]
    simp

/-! ### ext2 -/

namespace Ext2Volume
variable (f : Ext2Volume) (lba : ℕ)

/-- The volume on a drive with other contents. -/
def holding (c : ℕ → ℕ → UInt8) : Ext2Volume :=
  { f with driver := f.driver.holding c, sector_dvd := f.sector_dvd }

def firstSector : ℕ := f.startLba + lba * (f.blockSize / f.driver.sectorSize)

/-- No sector of the block fails three times. -/
def Intact : Prop :=
  ∀ s < f.blockSize / f.driver.sectorSize, f.driver.Reads (f.firstSector lba + s)

instance : Decidable (f.Intact lba) := inferInstanceAs (Decidable (∀ s < _, IoDriver.Reads _ _))

/-- The block is read right, whatever the drive holds. -/
def ReadsBlock : Prop := ∀ tail, BlockRead f.blockSize (f.Intact lba)
  (fun c j => (f.holding c).storedByte lba j) (fun c => (f.holding c).readBlock tail lba)

/-- The sectors that `ext2_read_block` reads. -/
def sectorsRead : Option (List ℕ) :=
  if f.CanRead lba then
    some ((List.range' (f.startLba + lba * f.blockSize % word32 / f.driver.sectorSize)
      (f.blockSize / f.driver.sectorSize)).map (· % word32))
  else none

variable {f lba}

theorem readBlock_holding (c : ℕ → ℕ → UInt8) (tail : ℕ → UInt8) :
    (f.holding c).readBlock tail lba =
      (f.sectorsRead lba).map fun l => f.driver.buffer tail f.blockSize (l.map c) := by
  rw [sectorsRead]
  split_ifs with h
  · rw [readBlock_of_canRead (show (f.holding c).CanRead lba from h), Option.map_some, List.map_map]
    rfl
  · exact readBlock_of_not_canRead (show ¬ (f.holding c).CanRead lba from h) tail

theorem mul_blockSize (f : Ext2Volume) (lba : ℕ) :
    lba * f.blockSize = f.driver.sectorSize * (lba * (f.blockSize / f.driver.sectorSize)) := by
  obtain ⟨q, hq⟩ : f.driver.sectorSize ∣ f.blockSize := f.sector_dvd
  rw [hq, Nat.mul_div_cancel_left _ f.driver.sectorSize_pos]
  ring

theorem storedByte_holding (c : ℕ → ℕ → UInt8) (j : ℕ) : (f.holding c).storedByte lba j =
    c (f.firstSector lba + j / f.driver.sectorSize) (j % f.driver.sectorSize) := by
  have hstored : (f.holding c).storedByte lba j =
      c (f.startLba + (lba * f.blockSize + j) / f.driver.sectorSize)
        ((lba * f.blockSize + j) % f.driver.sectorSize) := rfl
  rw [hstored, mul_blockSize, Nat.mul_add_div f.driver.sectorSize_pos, Nat.mul_add_mod, firstSector,
    Nat.add_assoc]

theorem readsBlock_iff_sectors : f.ReadsBlock lba ↔
    (f.Intact lba → f.sectorsRead lba =
      some (List.range' (f.firstSector lba) (f.blockSize / f.driver.sectorSize))) ∧
    (¬ f.Intact lba → f.sectorsRead lba = none) := by
  have hlen : ∀ l, f.sectorsRead lba = some l → l.length = f.blockSize / f.driver.sectorSize := by
    intro l hl
    rw [sectorsRead] at hl
    split_ifs at hl
    rw [← Option.some.inj hl]
    simp
  simp only [ReadsBlock, readBlock_holding, storedByte_holding]
  exact (forall_congr' fun tail => blockRead_iff tail f.sector_dvd hlen).trans (forall_const _)

theorem blockCount_pos (f : Ext2Volume) : 0 < f.blockSize / f.driver.sectorSize :=
  Nat.div_pos (Nat.le_of_dvd f.blockSize_pos f.sector_dvd) f.driver.sectorSize_pos

section OnDrive
variable (hdrive : f.firstSector lba + f.blockSize / f.driver.sectorSize ≤ word32)
include hdrive

/-- In the first 4 GiB, the sectors of the block are read if none of them fails three times. -/
theorem sectorsRead_of_lt (hlt : lba * f.blockSize < word32) : f.sectorsRead lba =
    if f.Intact lba then some (List.range' (f.firstSector lba) (f.blockSize / f.driver.sectorSize))
    else none := by
  have hfirst : f.startLba + lba * f.blockSize % word32 / f.driver.sectorSize =
      f.firstSector lba := by
    rw [Nat.mod_eq_of_lt hlt, mul_blockSize, Nat.mul_div_cancel_left _ f.driver.sectorSize_pos,
      firstSector]
  have hread : f.CanRead lba ↔ f.Intact lba := by
    rw [CanRead, Intact, hfirst]
    refine forall₂_congr fun s hs => ?_
    rw [Nat.mod_eq_of_lt (by omega)]
  rw [sectorsRead, hfirst, if_congr hread rfl rfl]
  congr 2
  refine (List.map_congr_left fun a ha => ?_).trans (List.map_id _)
  have := List.mem_range'_1.mp ha
  exact Nat.mod_eq_of_lt (by omega)

/-- Behind them the product wraps, and with it the first sector. -/
theorem sectorsRead_of_ge (hge : word32 ≤ lba * f.blockSize) : f.sectorsRead lba ≠
    some (List.range' (f.firstSector lba) (f.blockSize / f.driver.sectorSize)) := by
  have hpos := f.driver.sectorSize_pos
  have hcount := f.blockCount_pos
  rw [sectorsRead]
  split_ifs with hread
  · intro h
    obtain ⟨n, hn⟩ : ∃ n, f.blockSize / f.driver.sectorSize = n + 1 := ⟨_, (Nat.sub_add_cancel hcount).symm⟩
    rw [hn, List.range'_succ, List.range'_succ, List.map_cons] at h
    have hhead := (List.cons.inj (Option.some.inj h)).1
    have hdiv : lba * f.blockSize % word32 / f.driver.sectorSize <
        lba * (f.blockSize / f.driver.sectorSize) := by
      refine Nat.div_lt_of_lt_mul ?_
      rw [← mul_blockSize]
      exact (Nat.mod_lt _ (by decide)).trans_le hge
    rw [firstSector] at hhead hdrive
    rw [Nat.mod_eq_of_lt (by omega)] at hhead
    omega
  · simp

/-- A block of which the sectors have 32-bit numbers is read right, whatever the drive holds,
exactly if it begins in the first 4 GiB of the volume, or if it has a sector that fails three times
and the block that is read in its place has one, too. -/
theorem readsBlock_iff :
    f.ReadsBlock lba ↔ lba * f.blockSize < word32 ∨ ¬ f.Intact lba ∧ ¬ f.CanRead lba := by
  rw [readsBlock_iff_sectors]
  rcases Nat.lt_or_ge (lba * f.blockSize) word32 with hlt | hge
  · rw [sectorsRead_of_lt hdrive hlt]
    exact iff_of_true ⟨fun h => if_pos h, fun h => if_neg h⟩ (.inl hlt)
  · have hne := sectorsRead_of_ge hdrive hge
    have hnone : f.sectorsRead lba = none ↔ ¬ f.CanRead lba := by simp [sectorsRead]
    rw [hnone]
    simp only [hne, imp_false, not_lt.mpr hge, false_or]
    exact and_congr_right fun hnot => imp_iff_right hnot

end OnDrive

end Ext2Volume

/-! ### ISO 9660 -/

namespace Iso9660File
variable (f : Iso9660File) (lba : ℕ)

def holding (c : ℕ → ℕ → UInt8) : Iso9660File :=
  { f with driver := f.driver.holding c, sector_dvd := f.sector_dvd }

def sectorsPerBlock : ℕ := iso9660SectorSize / f.driver.sectorSize

/-- The first sector of a block; the volume begins a sector before the partition. -/
def firstSector : ℕ := f.startLba - 1 + lba * f.sectorsPerBlock

/-- No sector of the block fails three times. -/
def Intact : Prop := ∀ s < f.sectorsPerBlock, f.driver.Reads (f.firstSector lba + s)

instance : Decidable (f.Intact lba) := inferInstanceAs (Decidable (∀ s < _, IoDriver.Reads _ _))

/-- The block is read right, whatever the drive holds. -/
def ReadsBlock : Prop := ∀ tail, BlockRead iso9660SectorSize (f.Intact lba)
  (fun c j => c (f.firstSector lba + j / f.driver.sectorSize) (j % f.driver.sectorSize))
  (fun c => (f.holding c).readBlock tail lba)

/-- The attempts come to the sectors of the block: as many of them fail as there are sectors
between the one where they begin and the block, and no other one. -/
def Lands : Prop :=
  lba * (f.sectorsPerBlock - 1) < 3 ∧
    (∀ i < lba * (f.sectorsPerBlock - 1), f.driver.fails (f.startLba - 1 + lba + i) (2 - i) = true) ∧
    f.driver.fails (f.firstSector lba) (2 - lba * (f.sectorsPerBlock - 1)) = false ∧
    ∀ s < f.sectorsPerBlock - 1, f.driver.fails (f.firstSector lba + 1 + s) 2 = false

instance : Decidable (f.Lands lba) := inferInstanceAs (Decidable (_ ∧ _ ∧ _ ∧ _))

def GivesUp : Prop := f.driver.GivesUp f.sectorsPerBlock (f.startLba - 1 + lba + word32)

variable {f lba}

theorem readBlock_holding (c : ℕ → ℕ → UInt8) (tail : ℕ → UInt8) : (f.holding c).readBlock tail lba =
    ((f.driver.landings f.sectorsPerBlock (f.startLba - 1 + lba + word32)).map
      (List.map (· % word32))).map fun l => f.driver.buffer tail iso9660SectorSize (l.map c) := by
  have hpos := f.start_pos
  have hread : (f.holding c).readBlock tail lba =
      ((f.driver.holding c).readSectors 1 f.sectorsPerBlock (f.startLba + lba + word32 - 1)).map
        ((f.driver.holding c).buffer tail iso9660SectorSize) := rfl
  rw [hread, show f.startLba + lba + word32 - 1 = f.startLba - 1 + lba + word32 by omega,
    IoDriver.readSectors_one, IoDriver.landings_holding, Option.map_map, Option.map_map]
  congr 1
  funext l
  simp only [Function.comp_apply, List.map_map]
  rfl

theorem sectorsPerBlock_pos (f : Iso9660File) : 0 < f.sectorsPerBlock :=
  Nat.div_pos (Nat.le_of_dvd (by decide) f.sector_dvd) f.driver.sectorSize_pos

theorem firstSector_eq (f : Iso9660File) (lba : ℕ) :
    f.firstSector lba = f.startLba - 1 + lba + lba * (f.sectorsPerBlock - 1) := by
  obtain ⟨n, hn⟩ : ∃ n, f.sectorsPerBlock = n + 1 := ⟨_, (Nat.sub_add_cancel f.sectorsPerBlock_pos).symm⟩
  rw [firstSector, hn, Nat.add_sub_cancel]
  ring

theorem readsBlock_iff_sectors : f.ReadsBlock lba ↔
    (f.Intact lba → (f.driver.landings f.sectorsPerBlock (f.startLba - 1 + lba + word32)).map
      (List.map (· % word32)) = some (List.range' (f.firstSector lba) f.sectorsPerBlock)) ∧
    (¬ f.Intact lba → (f.driver.landings f.sectorsPerBlock (f.startLba - 1 + lba + word32)).map
      (List.map (· % word32)) = none) := by
  have hlen : ∀ l, (f.driver.landings f.sectorsPerBlock (f.startLba - 1 + lba + word32)).map
      (List.map (· % word32)) = some l → l.length = f.sectorsPerBlock := by
    intro l hl
    obtain ⟨as, has, rfl⟩ := Option.map_eq_some_iff.mp hl
    rw [List.length_map, IoDriver.landings_length has]
  simp only [ReadsBlock, readBlock_holding]
  exact (forall_congr' fun tail => blockRead_iff tail f.sector_dvd hlen).trans (forall_const _)

theorem landings_eq_iff (hdrive : f.firstSector lba + f.sectorsPerBlock ≤ word32) :
    (f.driver.landings f.sectorsPerBlock (f.startLba - 1 + lba + word32)).map
      (List.map (· % word32)) = some (List.range' (f.firstSector lba) f.sectorsPerBlock) ↔
      f.Lands lba := by
  have hfirst := f.firstSector_eq lba
  have hpos := f.sectorsPerBlock_pos
  rw [Lands]
  obtain ⟨n, hn⟩ : ∃ n, f.sectorsPerBlock = n + 1 := ⟨_, (Nat.sub_add_cancel hpos).symm⟩
  rw [hn] at hdrive hfirst ⊢
  rw [Nat.add_sub_cancel] at hfirst ⊢
  rw [IoDriver.landings_succ_eq (by omega) (by omega), IoDriver.landings_straight (by omega), hfirst,
    show f.startLba - 1 + lba + lba * n + word32 = f.startLba - 1 + lba + word32 + lba * n by omega,
    IoDriver.landing_eq_some, and_assoc, and_assoc]
  have hmod : ∀ i, f.startLba - 1 + lba + i < word32 →
      (f.startLba - 1 + lba + word32 + i) % word32 = f.startLba - 1 + lba + i := fun i hi => by
    rw [show f.startLba - 1 + lba + word32 + i = f.startLba - 1 + lba + i + word32 by omega,
      Nat.add_mod_right, Nat.mod_eq_of_lt hi]
  refine and_congr_right fun hskip => and_congr ?_ ?_
  · refine forall₂_congr fun i hi => ?_
    rw [hmod i (by omega)]
  · rw [hmod _ (by omega)]

/-- No sector fails three times when the attempts come to the sectors of the block. -/
theorem Lands.intact (h : f.Lands lba) : f.Intact lba := by
  obtain ⟨-, -, hfirst, hrest⟩ := h
  intro s hs
  cases s with
  | zero => exact ⟨_, by omega, hfirst⟩
  | succ s =>
    refine ⟨2, by decide, ?_⟩
    rw [Nat.add_comm s, ← Nat.add_assoc]
    exact hrest s (by omega)

/-- A block of which the sectors have 32-bit numbers is read right, whatever the drive holds,
exactly if the attempts come to its sectors, or if it has a sector that fails three times and the
attempts give up. -/
theorem readsBlock_iff (hdrive : f.firstSector lba + f.sectorsPerBlock ≤ word32) :
    f.ReadsBlock lba ↔ f.Lands lba ∨ ¬ f.Intact lba ∧ f.GivesUp lba := by
  rw [readsBlock_iff_sectors, landings_eq_iff hdrive, Option.map_eq_none_iff,
    IoDriver.landings_eq_none, GivesUp]
  by_cases hintact : f.Intact lba
  · simp [hintact]
  · have hlands : ¬ f.Lands lba := fun h => hintact h.intact
    simp [hintact, hlands]

/-- Where the blocks are the sectors of the drive, no first attempt may fail. -/
theorem lands_iff (hsector : f.driver.sectorSize = iso9660SectorSize) :
    f.Lands lba ↔ f.driver.fails (f.firstSector lba) 2 = false := by
  have hone : f.sectorsPerBlock = 1 := by
    rw [sectorsPerBlock, hsector]
    decide
  simp [Lands, hone]

end Iso9660File

/-- A block of which the sectors have 32-bit numbers is read right, whatever the drive holds,
exactly under these conditions. On ext2 it begins in the first 4 GiB of the volume; on ISO 9660 the
attempts come to its sectors. Otherwise it has a sector that fails three times, and the block that
is read in its place has one, too, or the attempts give up. -/
theorem block_read_iff (e : Ext2Volume) (f : Iso9660File) (lba : ℕ) :
    (e.firstSector lba + e.blockSize / e.driver.sectorSize ≤ word32 →
      (e.ReadsBlock lba ↔ lba * e.blockSize < word32 ∨ ¬ e.Intact lba ∧ ¬ e.CanRead lba)) ∧
    (f.firstSector lba + f.sectorsPerBlock ≤ word32 →
      (f.ReadsBlock lba ↔ f.Lands lba ∨ ¬ f.Intact lba ∧ f.GivesUp lba)) :=
  ⟨Ext2Volume.readsBlock_iff, Iso9660File.readsBlock_iff⟩

theorem block_read_of_first :
    ext2Example.toExt2Volume.ReadsBlock 24 ∧ iso9660Example.ReadsBlock 24 := by
  obtain ⟨hext2, hiso⟩ := block_read_iff ext2Example.toExt2Volume iso9660Example 24
  exact ⟨(hext2 (by decide)).mpr (.inl (by decide)), (hiso (by decide)).mpr (.inl (by decide))⟩

/-- A file on a drive that fails every first attempt. -/
def secondTryExample : Iso9660File :=
  { iso9660Example with
    driver := { iso9660Example.driver with fails := fun _ attempt => attempt = 2 }
    sector_dvd := iso9660Example.sector_dvd }

/-- Block 4194304 begins at 4 GiB, and block 0 is read in its place; a first attempt that fails
lets the next sector be read. -/
theorem block_read_wrong :
    (¬ ∀ (f : Ext2Volume) (lba : ℕ),
      f.firstSector lba + f.blockSize / f.driver.sectorSize ≤ word32 → f.ReadsBlock lba) ∧
    ¬ ∀ (f : Iso9660File) (lba : ℕ), f.firstSector lba + f.sectorsPerBlock ≤ word32 →
      f.ReadsBlock lba := by
  refine ⟨fun h => ?_, fun h => ?_⟩
  · obtain ⟨block, hread, hblock⟩ := (h ext2Example.toExt2Volume 4194304 (by decide) (fun _ => 0)
      fun a _ => if a = 8388671 then 1 else 0).1 (by decide)
    have hbyte : ((ext2Example.toExt2Volume.holding fun a _ => if a = 8388671 then 1 else 0).readBlock
        (fun _ => 0) 4194304).map (· 0) = some 0 := by decide +kernel
    dsimp only at hread
    rw [hread, Option.map_some, hblock 0 (by decide)] at hbyte
    exact absurd hbyte (by decide +kernel)
  · obtain ⟨block, hread, hblock⟩ := (h secondTryExample 24 (by decide) (fun _ => 0)
      fun a _ => if a = 24 then 1 else 0).1 (by decide)
    have hbyte : ((secondTryExample.holding fun a _ => if a = 24 then 1 else 0).readBlock
        (fun _ => 0) 24).map (· 0) = some 0 := by decide +kernel
    dsimp only at hread
    rw [hread, Option.map_some, hblock 0 (by decide)] at hbyte
    exact absurd hbyte (by decide +kernel)

end DosKernel
