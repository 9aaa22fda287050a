import DosKernel.Fs.Sequential

/-! Reads of an ISO 9660 file from a block boundary, on a drive whose sectors are the blocks of
the volume. -/

namespace DosKernel

open Lib

namespace Iso9660File

/-- Byte `j` counted from the device sector that holds position `offset` of the extent. -/
def deviceByte (f : Iso9660File) (offset j : ℕ) : UInt8 :=
  f.driver.sector ((f.startLba + f.extentLba - 1 + offset / iso9660SectorSize +
    j / iso9660SectorSize) % word32) (j % iso9660SectorSize)

variable {f : Iso9660File}

/-- A sector that is read on the first try fills the block. -/
theorem readBlock_first (hsector : f.driver.sectorSize = iso9660SectorSize)
    (hfirst : ∀ lba, f.driver.fails lba 2 = false) (t : ℕ → UInt8) (lba : ℕ) :
    f.readBlock t lba = some (f.driver.buffer t iso9660SectorSize
      [f.driver.sector ((f.startLba + lba + word32 - 1) % word32)]) := by
  have hone : iso9660SectorSize / f.driver.sectorSize = 1 := by
    rw [hsector]
    decide
  rw [readBlock, hone]
  simp only [IoDriver.readSectors, IoDriver.tryRead, IoDriver.readSector, hfirst]
  rfl

theorem extentBlocks_holds (hsector : f.driver.sectorSize = iso9660SectorSize)
    (hfirst : ∀ lba, f.driver.fails lba 2 = false) (t : ℕ → UInt8) {n offset : ℕ}
    (hn : offset + n ≤ f.extentSize) :
    Holds iso9660SectorSize (f.deviceByte offset) 0 n (f.extentBlocks t n offset) := by
  intro k hk
  have hsize := f.size_lt
  have hpos := f.start_pos
  have hindex : (offset + k * iso9660SectorSize) % word32 / iso9660SectorSize =
      offset / iso9660SectorSize + k := by
    rw [Nat.mod_eq_of_lt (by omega), Nat.add_mul_div_right _ _ (by decide)]
  refine ⟨_, by rw [extentBlocks_getElem? t n offset (by omega), hindex,
    readBlock_first hsector hfirst], fun j hj => ?_⟩
  have hblock : (0 + k * iso9660SectorSize + j) / iso9660SectorSize = k ∧
      (0 + k * iso9660SectorSize + j) % iso9660SectorSize = j := by
    rw [iso9660SectorSize] at hj ⊢
    omega
  rw [deviceByte, hblock.1, hblock.2, IoDriver.buffer, if_pos hj, hsector, Nat.div_eq_of_lt hj,
    Nat.mod_eq_of_lt hj]
  generalize offset / iso9660SectorSize = block
  rw [show f.startLba + (f.extentLba + (block + k)) + word32 - 1 =
    f.startLba + f.extentLba - 1 + block + k + word32 by omega, Nat.add_mod_right]
  rfl

/-- A read from a block boundary returns what is left of the file behind the offset, up to
`count` bytes, from the device sectors of the extent. -/
theorem aligned_read (hsector : f.driver.sectorSize = iso9660SectorSize)
    (hfirst : ∀ lba, f.driver.fails lba 2 = false) (hsize : f.extentSize < 2147483648)
    (tail : ℕ → UInt8) {count offset : ℕ} (hoffset : iso9660SectorSize ∣ offset)
    (hsum : offset + count < word32) :
    f.read tail count offset = (((min count (f.extentSize - offset) : ℕ) : ℤ),
      slice (f.deviceByte offset) 0 (min count (f.extentSize - offset))) := by
  rw [read]
  split_ifs with hpast
  · rw [Nat.sub_eq_zero_of_le hpast, Nat.min_zero]
    rfl
  · have hlt := Nat.lt_of_not_le hpast
    have hholds := extentBlocks_holds hsector hfirst tail
      (show offset + min count (f.extentSize - offset) ≤ f.extentSize by omega)
    have hcopy : copyBlocks iso9660SectorSize 0 (f.extentBlocks tail _ offset) _ = _ :=
      copyBlocks_eq (.inl rfl) (by rwa [Nat.zero_add])
    rw [extentBlocks] at hcopy
    rw [clip_eq hlt hsum, Nat.mod_eq_zero_of_dvd hoffset, hcopy, result_of_ok rfl ?_]
    · simp
    · rw [slice_length]
      omega

theorem aligned_read_of_rest :
    iso9660Example.read (fun _ => 0xff) 5000 2048 =
      (((min 5000 (iso9660Example.extentSize - 2048) : ℕ) : ℤ),
        slice (iso9660Example.deviceByte 2048) 0 (min 5000 (iso9660Example.extentSize - 2048))) :=
  aligned_read rfl (fun _ => rfl) (by decide) _ (by decide) (by decide)

end Iso9660File

end DosKernel
