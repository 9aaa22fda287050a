import DosKernel.Fs.Ext2Contents

/-! The inodes of an ext2 volume. `ext2_read_inode` takes the first block of the descriptor
table for the whole table, goes on with what was on the stack if that block cannot be read, and
steps through the inode table in units of 128 bytes. -/

namespace DosKernel

open Lib

/-- The inodes of a volume, from the superblock; in revision 0 they have 128 bytes. The bitmap
of a group is one block, of at most 64 KiB. -/
structure Ext2Inodes extends Ext2Volume where
  inodes : ℕ
  inodesPerGroup : ℕ
  inodeSize : ℕ
  log2_le_six : log2BlockSize ≤ 6
  perGroup_pos : 0 < inodesPerGroup
  perGroup_le : inodesPerGroup ≤ 8 * (1024 * 2 ^ log2BlockSize)
  inodeSize_ge : 128 ≤ inodeSize
  inodeSize_dvd : inodeSize ∣ 1024 * 2 ^ log2BlockSize
  inodes_lt : inodes < word32

namespace Ext2Volume
variable (f : Ext2Volume) (tail : ℕ → UInt8)

/-- The 32-bit number at an offset. -/
def word (b : ℕ → UInt8) (o : ℕ) : ℕ :=
  (b o).toNat + 256 * (b (o + 1)).toNat + 65536 * (b (o + 2)).toNat + 16777216 * (b (o + 3)).toNat

/-- The first block of the descriptor table. -/
def bgdBlock : ℕ := if f.blockSize = 1024 then 2 else 1

/-- `ext2_read_bgd`: the inode table of the descriptor. -/
def readBgd (index : ℕ) : Option ℕ :=
  (f.readBlock tail f.bgdBlock).map fun block => word block (index * 32 % word32 + 8)

end Ext2Volume

namespace Ext2Inodes
variable (v : Ext2Inodes) (tail : ℕ → UInt8) (bgd index : ℕ)

def group : ℕ := (index - 1) / v.inodesPerGroup

def indexInGroup : ℕ := (index - 1) % v.inodesPerGroup

/-- `bgd.inode_table_block` after the result of `ext2_read_bgd` was dropped. -/
def tableBlockRead : ℕ := (v.readBgd tail (v.group index)).getD bgd

/-- `ext2_read_inode` of an inode from 1 on; `bgd` is what lies in the uninitialised
descriptor. -/
def readInode : ℤ × List UInt8 :=
  let i := v.indexInGroup index
  let block := (v.tableBlockRead tail bgd index + i * 128 % word32 / v.blockSize) % word32
  match v.readBlock tail block with
  | none => (-eio, [])
  | some buffer => (0, slice buffer (i * 128 % word32 % v.blockSize) 128)

/-! ### Inodes on the drive -/

def tableBlock (group : ℕ) : ℕ :=
  Ext2Volume.word (v.storedByte v.bgdBlock) (group * 32 + 8)

def inodeByte (j : ℕ) : UInt8 :=
  v.storedByte (v.tableBlock (v.group index)) (v.indexInGroup index * v.inodeSize + j)

/-- A sector of the block with the descriptor of the group, or of its inode table, cannot be
read. -/
def TableFails (group : ℕ) : Prop :=
  ¬ v.CanRead (v.bgdBlock + group * 32 / v.blockSize) ∨
    ∃ k, k * v.blockSize < v.inodesPerGroup * v.inodeSize ∧ ¬ v.CanRead (v.tableBlock group + k)

/-- The inode is found, or there is a reason for an error. -/
def LooksUp : Prop :=
  v.readInode tail bgd index = (0, slice (v.inodeByte index) 0 128) ∨
    (v.readInode tail bgd index).1 < 0 ∧ v.TableFails (v.group index)

/-- The block that is read for an inode if the table begins at `table`. -/
def blockRead (table : ℕ) : ℕ := (table + v.indexInGroup index * 128 % word32 / v.blockSize) % word32

/-- With the table at `table` and inodes of 128 bytes, the inode is found or there is a reason
for an error. -/
def FoundAt (table : ℕ) : Prop :=
  if v.CanRead (v.blockRead index table) then
    slice (v.blockByte (v.blockRead index table))
      (v.indexInGroup index * 128 % word32 % v.blockSize) 128 = slice (v.inodeByte index) 0 128
  else v.TableFails (v.group index)

/-- The descriptor is taken from a block that was read. -/
def DescriptorRead (group : ℕ) : Prop :=
  v.CanRead v.bgdBlock ∧ group * 32 % word32 < v.blockSize

instance (group : ℕ) : Decidable (v.DescriptorRead group) := inferInstanceAs (Decidable (_ ∧ _))

variable {v tail bgd index}

theorem blockSize_le (v : Ext2Inodes) : v.blockSize ≤ 65536 := by
  have := Nat.pow_le_pow_right (show 0 < 2 by decide) v.log2_le_six
  rw [Ext2Volume.blockSize]
  omega

theorem dvd_blockSize (v : Ext2Inodes) : 1024 ∣ v.blockSize := ⟨_, rfl⟩

theorem dvd_mod_blockSize {n x : ℕ} (hn : n ∣ 1024) (hx : n ∣ x) : n ∣ x % v.blockSize :=
  (Nat.dvd_mod_iff (hn.trans v.dvd_blockSize)).mpr hx

/-- Pieces of a size that divides the block do not cross its end. -/
theorem piece_le {n x : ℕ} (hn : n ∣ 1024) (hx : n ∣ x) (h : x < v.blockSize) :
    x + n ≤ v.blockSize := by
  obtain ⟨q, hq⟩ := hn.trans v.dvd_blockSize
  obtain ⟨i, rfl⟩ := hx
  rw [hq] at h ⊢
  rw [← Nat.mul_succ]
  exact Nat.mul_le_mul_left n (Nat.lt_of_mul_lt_mul_left h)

theorem readInode_of_canRead (h : v.CanRead (v.blockRead index (v.tableBlockRead tail bgd index))) :
    v.readInode tail bgd index =
      (0, slice (v.blockByte (v.blockRead index (v.tableBlockRead tail bgd index)))
        (v.indexInGroup index * 128 % word32 % v.blockSize) 128) := by
  have hpos := v.blockSize_pos
  have hmod := Nat.mod_lt (v.indexInGroup index * 128 % word32) hpos
  have hdvd : 128 ∣ v.indexInGroup index * 128 % word32 :=
    (Nat.dvd_mod_iff (by decide)).mpr (Nat.dvd_mul_left _ _)
  have hend := v.piece_le (by decide) (v.dvd_mod_blockSize (by decide) hdvd) hmod
  rw [readInode, ← blockRead, Ext2Volume.readBlock_of_canRead h]
  dsimp only
  rw [slice_congr fun j hj => Ext2Volume.buffer_block tail _ (by omega)]

theorem readInode_of_not_canRead
    (h : ¬ v.CanRead (v.blockRead index (v.tableBlockRead tail bgd index))) :
    v.readInode tail bgd index = (-eio, []) := by
  rw [readInode, ← blockRead, Ext2Volume.readBlock_of_not_canRead h]

/-- What is looked up is decided by the number of the table block. -/
theorem looksUp_iff :
    v.LooksUp tail bgd index ↔ v.FoundAt index (v.tableBlockRead tail bgd index) := by
  rw [LooksUp, FoundAt]
  split_ifs with h
  · rw [readInode_of_canRead h]
    simp
  · rw [readInode_of_not_canRead h]
    simp [eio]

/-! ### The table block -/

theorem word_congr {b b' : ℕ → UInt8} {o o' : ℕ} (h : ∀ k < 4, b (o + k) = b' (o' + k)) :
    Ext2Volume.word b o = Ext2Volume.word b' o' := by
  have h0 := h 0 (by omega)
  rw [Nat.add_zero, Nat.add_zero] at h0
  rw [Ext2Volume.word, Ext2Volume.word, h0, h 1 (by omega), h 2 (by omega), h 3 (by omega)]

theorem tableBlockRead_of_read (h : v.DescriptorRead (v.group index)) :
    v.tableBlockRead tail bgd index =
      Ext2Volume.word (v.blockByte v.bgdBlock) (v.group index * 32 % word32 + 8) := by
  obtain ⟨hread, hlt⟩ := h
  have hdvd : 32 ∣ v.group index * 32 % word32 :=
    (Nat.dvd_mod_iff (by decide)).mpr (Nat.dvd_mul_left _ _)
  have hend := v.piece_le (by decide) hdvd hlt
  rw [tableBlockRead, Ext2Volume.readBgd, Ext2Volume.readBlock_of_canRead hread, Option.map_some,
    Option.getD_some]
  exact word_congr fun k hk => Ext2Volume.buffer_block tail _ (by omega)

/-- A number that is not taken from a block can be any. -/
theorem exists_tableBlockRead (h : ¬ v.DescriptorRead (v.group index)) {x : ℕ} (hx : x < word32) :
    ∃ tail, ∃ bgd < word32, v.tableBlockRead tail bgd index = x := by
  by_cases hread : v.CanRead v.bgdBlock
  · -- the bytes of `x`, behind the buffer
    have hge : v.blockSize ≤ v.group index * 32 % word32 := Nat.le_of_not_lt fun hlt => h ⟨hread, hlt⟩
    let tail : ℕ → UInt8 := fun j =>
      UInt8.ofNat (x / 256 ^ (j - (v.group index * 32 % word32 + 8 - v.blockSize)))
    refine ⟨tail, 0, by decide, ?_⟩
    have hbyte : ∀ k < 4, ∀ sectors, v.driver.buffer tail v.blockSize sectors
        (v.group index * 32 % word32 + 8 + k) = UInt8.ofNat (x / 256 ^ (0 + k)) := by
      intro k _ sectors
      rw [IoDriver.buffer, if_neg (by omega)]
      exact congrArg (fun e => UInt8.ofNat (x / 256 ^ e)) (by omega)
    rw [tableBlockRead, Ext2Volume.readBgd, Ext2Volume.readBlock_of_canRead hread, Option.map_some,
      Option.getD_some, @word_congr _ (fun k => UInt8.ofNat (x / 256 ^ k)) _ 0
        fun k hk => hbyte k hk _]
    simp only [Ext2Volume.word, UInt8.toNat_ofNat', word32] at *
    omega
  · refine ⟨fun _ => 0, x, hx, ?_⟩
    rw [tableBlockRead, Ext2Volume.readBgd, Ext2Volume.readBlock_of_not_canRead hread]
    rfl

theorem word_lt (b : ℕ → UInt8) (o : ℕ) : Ext2Volume.word b o < word32 := by
  have h0 := (b o).toNat_lt
  have h1 := (b (o + 1)).toNat_lt
  have h2 := (b (o + 2)).toNat_lt
  have h3 := (b (o + 3)).toNat_lt
  rw [Ext2Volume.word, word32]
  omega

theorem tableBlockRead_lt (hbgd : bgd < word32) : v.tableBlockRead tail bgd index < word32 := by
  rw [tableBlockRead, Ext2Volume.readBgd]
  cases v.readBlock tail v.bgdBlock with
  | none => exact hbgd
  | some block => exact word_lt _ _

/-- The same place, counted from two blocks. -/
theorem storedByte_congr {f : Ext2Volume} {p p' j j' : ℕ}
    (h : p * f.blockSize + j = p' * f.blockSize + j') : f.storedByte p j = f.storedByte p' j' := by
  rw [Ext2Volume.storedByte, Ext2Volume.storedByte, h]

/-- The number in the first block of the table, for a descriptor in it. -/
theorem word_first {g : ℕ} (hfits : v.Fits v.bgdBlock) (hfirst : g * 32 < v.blockSize) :
    Ext2Volume.word (v.blockByte v.bgdBlock) (g * 32 % word32 + 8) = v.tableBlock g := by
  have hle := v.blockSize_le
  have hend := v.piece_le (by decide) (Nat.dvd_mul_left 32 g) hfirst
  have hmod : g * 32 % word32 = g * 32 := Nat.mod_eq_of_lt (by rw [word32]; omega)
  rw [hmod, tableBlock]
  exact word_congr fun k hk => hfits.blockByte_eq (by omega)

/-- An inode is found through its descriptor if the inodes have 128 bytes or it is the first
one of its group. -/
theorem foundAt_tableBlock (hsize : v.inodeSize = 128 ∨ v.indexInGroup index = 0)
    (hfits : v.Fits (v.tableBlock (v.group index) + v.indexInGroup index * 128 / v.blockSize)) :
    v.FoundAt index (v.tableBlock (v.group index)) := by
  have hpos := v.blockSize_pos
  have hle := v.blockSize_le
  have hindex : v.indexInGroup index < v.inodesPerGroup := Nat.mod_lt _ v.perGroup_pos
  have hper : v.inodesPerGroup ≤ 8 * v.blockSize := v.perGroup_le
  have hword : v.indexInGroup index * 128 % word32 = v.indexInGroup index * 128 :=
    Nat.mod_eq_of_lt (by rw [word32]; omega)
  have hblock : v.blockRead index (v.tableBlock (v.group index)) =
      v.tableBlock (v.group index) + v.indexInGroup index * 128 / v.blockSize := by
    rw [blockRead, hword]
    exact Nat.mod_eq_of_lt ((Nat.le_mul_of_pos_right _ hpos).trans_lt hfits.1)
  have hdiv := Nat.div_add_mod (v.indexInGroup index * 128) v.blockSize
  rw [Nat.mul_comm] at hdiv
  rw [FoundAt, hblock, hword]
  split_ifs with hread
  · have hmod := Nat.mod_lt (v.indexInGroup index * 128) hpos
    have hdvd := v.dvd_mod_blockSize (by decide) (Nat.dvd_mul_left 128 (v.indexInGroup index))
    have hend := v.piece_le (by decide) hdvd hmod
    refine slice_congr fun j hj => ?_
    rw [hfits.blockByte_eq (by omega), inodeByte]
    refine storedByte_congr ?_
    have hstride : v.indexInGroup index * v.inodeSize = v.indexInGroup index * 128 := by
      rcases hsize with h | h <;> rw [h]
      rw [Nat.zero_mul, Nat.zero_mul]
    rw [hstride, Nat.add_mul]
    omega
  · refine .inr ⟨_, ?_, hread⟩
    have hge : v.inodesPerGroup * 128 ≤ v.inodesPerGroup * v.inodeSize :=
      Nat.mul_le_mul_left _ v.inodeSize_ge
    omega

/-- An inode is looked up right, whatever lay on the stack and behind the buffer, exactly if it
is found in the table that the first block of descriptors names for its group, or, if that block
cannot be read or does not reach so far, in a table that begins at any block. So it is if its
descriptor is in that block, and the inodes have 128 bytes or it is the first one of its group. -/
theorem inode_lookup_iff (v : Ext2Inodes) (index : ℕ) :
    ((∀ tail, ∀ bgd < word32, v.LooksUp tail bgd index) ↔
      if v.DescriptorRead (v.group index) then v.FoundAt index
        (Ext2Volume.word (v.blockByte v.bgdBlock) (v.group index * 32 % word32 + 8))
      else ∀ table < word32, v.FoundAt index table) ∧
    (v.CanRead v.bgdBlock → v.Fits v.bgdBlock → v.group index * 32 < v.blockSize →
      (v.inodeSize = 128 ∨ v.indexInGroup index = 0) →
      v.Fits (v.tableBlock (v.group index) + v.indexInGroup index * 128 / v.blockSize) →
      ∀ tail, ∀ bgd < word32, v.LooksUp tail bgd index) := by
  have hiff : (∀ tail, ∀ bgd < word32, v.LooksUp tail bgd index) ↔
      if v.DescriptorRead (v.group index) then v.FoundAt index
        (Ext2Volume.word (v.blockByte v.bgdBlock) (v.group index * 32 % word32 + 8))
      else ∀ table < word32, v.FoundAt index table := by
    split_ifs with h
    · simp only [looksUp_iff, tableBlockRead_of_read h]
      exact ⟨fun hall => hall (fun _ => 0) 0 (by decide), fun hfound _ _ _ => hfound⟩
    · simp only [looksUp_iff]
      constructor
      · intro hall table htable
        obtain ⟨tail, bgd, hbgd, rfl⟩ := exists_tableBlockRead h htable
        exact hall tail bgd hbgd
      · exact fun hall tail bgd hbgd => hall _ (tableBlockRead_lt hbgd)
  refine ⟨hiff, fun hread hfits hfirst hsize htable => hiff.mpr ?_⟩
  have hmod : v.group index * 32 % word32 = v.group index * 32 :=
    Nat.mod_eq_of_lt (by have := v.blockSize_le; rw [word32]; omega)
  rw [if_pos ⟨hread, hmod.symm ▸ hfirst⟩, word_first hfits hfirst]
  exact foundAt_tableBlock hsize htable

end Ext2Inodes

/-- Block 2 names block 5 as the inode table, which counts its pieces of 128 bytes. -/
def inodeDrive : IoDriver where
  sectorSize := 1024
  sector := fun lba j => if lba = 2 then if j = 8 then 5 else 0 else (j / 128).toUInt8
  fails := fun _ _ => false
  sectorSize_pos := sector1024_pos

/-- One group of 16 inodes of 256 bytes. -/
def inodeExample : Ext2Inodes where
  driver := inodeDrive
  startLba := 0
  log2BlockSize := 0
  inodes := 16
  inodesPerGroup := 16
  inodeSize := 256
  log2_le := smallestBlock_le
  sector_dvd := ⟨1, rfl⟩
  log2_le_six := by decide
  perGroup_pos := by decide
  perGroup_le := by decide
  inodeSize_ge := by decide
  inodeSize_dvd := ⟨4, rfl⟩
  inodes_lt := by decide

namespace Ext2Inodes

theorem inode_lookup_of_first : inodeExample.LooksUp (fun _ => 0xff) 0xcccccccc 1 :=
  (inode_lookup_iff inodeExample 1).2 (by decide) (by decide) (by decide) (.inr rfl)
    (by decide) _ _ (by decide)

/-- The second inode begins at byte 256; the bytes from 128 on are returned. -/
theorem inode_lookup_wrong :
    ¬ ∀ (v : Ext2Inodes) (tail : ℕ → UInt8) (bgd index : ℕ), bgd < word32 → 1 ≤ index →
      index ≤ v.inodes → v.LooksUp tail bgd index := by
  intro h
  rcases h inodeExample (fun _ => 0) 0 2 (by decide) (by decide) (by decide) with hfound | hfails
  · have hread : (inodeExample.readInode (fun _ => 0) 0 2).2.head? = some 1 := by decide +kernel
    rw [hfound] at hread
    exact absurd hread (by decide)
  · exact absurd hfails.1 (by decide)

end Ext2Inodes

end DosKernel
