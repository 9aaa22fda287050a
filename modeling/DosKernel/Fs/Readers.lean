import DosKernel.Lib.Chunks
import DosKernel.Syscall.Read

/-! The read functions of the three disk file systems. Each splits a request into
blocks, reads a block into a buffer and copies from the buffer at an inner offset
that it computes once for the whole request; what a copy finds behind the buffer is
the parameter `tail`. -/

namespace DosKernel

open Lib

/-- The error numbers that the file systems return. -/
def eio : ℤ := 5

def enotdir : ℤ := 20

/-- `iodriver`: what the drive holds, and which attempts at a sector fail. -/
structure IoDriver where
  sectorSize : ℕ
  sector : (lba : ℕ) → ℕ → UInt8
  fails : (lba attempt : ℕ) → Bool
  sectorSize_pos : 0 < sectorSize

theorem sector512_pos : 0 < 512 := by decide

theorem sector1024_pos : 0 < 1024 := by decide

theorem sector2048_pos : 0 < 2048 := by decide

theorem sector512_le : 512 ≤ 4096 := by decide

theorem size2048_lt : 2048 < word32 := by decide

theorem smallestBlock_le : 0 ≤ 20 := by decide

namespace IoDriver
variable (d : IoDriver)

def readSector (lba attempt : ℕ) : Option (ℕ → UInt8) :=
  if d.fails lba attempt then none else some (d.sector lba)

/-- The attempts at one sector, with the address after the last of them; a failed
attempt moves the address by `skip`. -/
def tryRead (skip : ℕ) : (tries lba : ℕ) → Option ((ℕ → UInt8) × ℕ)
  | 0, _ => none
  | tries + 1, lba =>
    match d.readSector (lba % word32) tries with
    | some s => some (s, lba)
    | none => tryRead skip tries (lba + skip)

/-- The sectors of a block, each with up to three attempts. -/
def readSectors (skip : ℕ) : (passes lba : ℕ) → Option (List (ℕ → UInt8))
  | 0, _ => some []
  | passes + 1, lba =>
    (d.tryRead skip 3 lba).bind fun r => (readSectors skip passes (r.2 + 1)).map (r.1 :: ·)

/-- A buffer of `size` bytes filled from the sectors, and what lies behind it. -/
def buffer (tail : ℕ → UInt8) (size : ℕ) (sectors : List (ℕ → UInt8)) : ℕ → UInt8 := fun j =>
  if j < size then sectors.getD (j / d.sectorSize) (fun _ => 0) (j % d.sectorSize)
  else tail (j - size)

/-- Every attempt at every sector succeeds. -/
def Readable : Prop := ∀ lba attempt, d.fails lba attempt = false

end IoDriver

/-- `return bytes_read` as an `int`, or `-EIO`, with the bytes stored. -/
def copyResult (c : Copied UInt8) : ℤ × List UInt8 :=
  (if c.ok then Int.bmod c.stored.length word32 else -eio, c.stored)

/-- `if (offset + count > size) count = size - offset`, on 32-bit words. -/
def clip (size count offset : ℕ) : ℕ :=
  if size < (offset + count) % word32 then size - offset else count

/-! ### ext2 -/

/-- An ext2 volume: the driver and the size of its blocks. `ext2_init` panics unless they are
made of whole sectors, and `1024 << 20` is the largest size that is an `int`. -/
structure Ext2Volume where
  driver : IoDriver
  startLba : ℕ
  log2BlockSize : ℕ
  log2_le : log2BlockSize ≤ 20
  sector_dvd : driver.sectorSize ∣ 1024 * 2 ^ log2BlockSize

namespace Ext2Volume
variable (f : Ext2Volume) (tail : ℕ → UInt8)

def blockSize : ℕ := 1024 * 2 ^ f.log2BlockSize

def readBlock (lba : ℕ) : Option (ℕ → UInt8) :=
  (f.driver.readSectors 0 (f.blockSize / f.driver.sectorSize)
    (f.startLba + lba * f.blockSize % word32 / f.driver.sectorSize)).map
      (f.driver.buffer tail f.blockSize)

def pointers (block : ℕ → UInt8) : List ℕ :=
  (List.range (f.blockSize / 4)).map fun i =>
    (block (4 * i)).toNat + 256 * (block (4 * i + 1)).toNat + 65536 * (block (4 * i + 2)).toNat +
      16777216 * (block (4 * i + 3)).toNat

/-- `ext2_read_singly_indirect_block_pointer`. -/
def readSinglyIndirect (pointer count offset : ℕ) : Copied UInt8 :=
  match f.readBlock tail pointer with
  | none => ⟨[], count, false⟩
  | some block =>
    copyBlocks f.blockSize (offset % f.blockSize)
      ((((f.pointers block).drop (offset / f.blockSize / 4)).takeWhile (· ≠ 0)).map
        (f.readBlock tail)) count

/-- The indirect blocks below a pointer, added to what was copied before: level 0 is
a singly indirect pointer, level 1 a doubly and level 2 a triply indirect one. The helper
returns its count as an `int`, which the blocks of at most 64 KiB that ext2 has keep positive. -/
def readIndirect (offset : ℕ) : (level : ℕ) → Copied UInt8 → (pointer : ℕ) → Copied UInt8
  | 0, c, pointer =>
    if c.ok = false ∨ c.left = 0 then c
    else
      let r := f.readSinglyIndirect tail pointer c.left (offset - c.stored.length)
      ⟨c.stored ++ r.stored, r.left, r.ok⟩
  | level + 1, c, pointer =>
    if c.ok = false ∨ c.left = 0 then c
    else
      match f.readBlock tail pointer with
      | none => { c with ok := false }
      | some block => ((f.pointers block).takeWhile (· ≠ 0)).foldl (readIndirect offset level) c

end Ext2Volume

/-- A file on an ext2 volume: what `ext2_read` uses of the inode. -/
structure Ext2File extends Ext2Volume where
  size : ℕ
  directBlockPointers : List ℕ
  singlyIndirect : ℕ
  doublyIndirect : ℕ
  triplyIndirect : ℕ
  size_lt : size < word32
  direct_length : directBlockPointers.length = 12

namespace Ext2File
variable (f : Ext2File) (tail : ℕ → UInt8)

/-- The copies of `ext2_read`, the direct blocks first. -/
def readBlocks (count offset : ℕ) : Copied UInt8 :=
  let direct := copyBlocks f.blockSize (offset % f.blockSize)
    (((f.directBlockPointers.drop (offset / f.blockSize)).takeWhile (· ≠ 0)).map
      (f.readBlock tail)) count
  let singly := if f.singlyIndirect = 0 then direct
    else f.readIndirect tail offset 0 direct f.singlyIndirect
  let doubly := if f.doublyIndirect = 0 then singly
    else f.readIndirect tail offset 1 singly f.doublyIndirect
  if f.triplyIndirect = 0 then doubly
  else f.readIndirect tail offset 2 doubly f.triplyIndirect

/-- `ext2_read`. -/
def read (count offset : ℕ) : ℤ × List UInt8 :=
  if f.size ≤ offset then (0, [])
  else copyResult (f.readBlocks tail (clip f.size count offset) offset)

end Ext2File

/-! ### FAT -/

/-- A file on a FAT volume: the driver, the parameter block, the cached allocation
table and the directory entry. `fat_init` panics unless a logical sector is made of
whole drive sectors; the root directory fills whole sectors. -/
structure FatFile where
  driver : IoDriver
  fat12 : Bool
  startLba : ℕ
  bytesPerSector : ℕ
  sectorsPerCluster : ℕ
  reservedSectors : ℕ
  numberOfFat : ℕ
  sectorsPerFat : ℕ
  rootdirEntries : ℕ
  bitmap : ℕ → UInt8
  cluster : ℕ
  size : ℕ
  bytes_pos : 0 < bytesPerSector
  bytes_le : bytesPerSector ≤ 4096
  sector_dvd : driver.sectorSize ∣ bytesPerSector
  rootdir_dvd : bytesPerSector ∣ rootdirEntries * 32
  size_lt : size < word32

namespace FatFile
variable (f : FatFile) (tail : ℕ → UInt8)

/-- The first value that does not continue a chain. -/
def invalid : ℕ := if f.fat12 then 0xff8 else 0xfff8

/-- `fat12_next_cluster` and `fat16_next_cluster`, on the cached table. -/
def nextCluster (cluster : ℕ) : ℕ :=
  let fatOffset := if f.fat12 then cluster + cluster / 2 else cluster * 2
  let entry := fatOffset / f.bytesPerSector * f.bytesPerSector + fatOffset % f.bytesPerSector
  let value := (f.bitmap entry).toNat + 256 * (f.bitmap (entry + 1)).toNat
  if f.fat12 then if cluster % 2 = 1 then value / 16 else value % 4096 else value

/-- The first loop of `fat_read`: the cluster that `offset` lies in. -/
def skipClusters : (passes cluster : ℕ) → ℕ
  | 0, cluster => cluster
  | passes + 1, cluster =>
    if cluster < f.invalid then skipClusters passes (f.nextCluster cluster) else cluster

/-- The clusters from one on, as many as the second loop can visit. -/
def clusterChain : (passes cluster : ℕ) → List ℕ
  | 0, _ => []
  | passes + 1, cluster =>
    if cluster < f.invalid then cluster :: clusterChain passes (f.nextCluster cluster) else []

def rootdirSector : ℕ := f.startLba + f.reservedSectors + f.numberOfFat * f.sectorsPerFat

/-- `driver->io_buffer` after the sector of a cluster was read. -/
def readCluster (cluster : ℕ) : Option (ℕ → UInt8) :=
  (f.driver.readSector (((cluster + word32 - 2) * f.sectorsPerCluster + f.rootdirSector +
    f.rootdirEntries * 32 / f.bytesPerSector) % word32) 0).map fun s =>
      f.driver.buffer tail f.driver.sectorSize [s]

/-- `fat_read`. Each pass of its second loop takes at least one byte. -/
def read (count offset : ℕ) : ℤ × List UInt8 :=
  if f.size ≤ offset then (0, [])
  else
    let count := clip f.size count offset
    let cluster := f.skipClusters (offset / f.bytesPerSector) f.cluster
    copyResult (copyBlocks f.bytesPerSector (offset % f.bytesPerSector)
      ((f.clusterChain count cluster).map (f.readCluster tail)) count)

end FatFile

/-! ### ISO 9660 -/

def iso9660SectorSize : ℕ := 2048

/-- A file on an ISO 9660 volume: the driver and the directory entry. The partition
is listed in the sector before it, which is the first one of the volume. -/
structure Iso9660File where
  driver : IoDriver
  startLba : ℕ
  extentLba : ℕ
  extentSize : ℕ
  start_pos : 0 < startLba
  sector_dvd : driver.sectorSize ∣ iso9660SectorSize
  size_lt : extentSize < word32

namespace Iso9660File
variable (f : Iso9660File) (tail : ℕ → UInt8)

/-- `iso9660_read_block`; a failed attempt moves on to the next sector. -/
def readBlock (lba : ℕ) : Option (ℕ → UInt8) :=
  (f.driver.readSectors 1 (iso9660SectorSize / f.driver.sectorSize)
    (f.startLba + lba + word32 - 1)).map (f.driver.buffer tail iso9660SectorSize)

/-- `iso9660_read`. -/
def read (count offset : ℕ) : ℤ × List UInt8 :=
  if f.extentSize ≤ offset then (0, [])
  else
    copyResult (copyBlocks iso9660SectorSize (offset % iso9660SectorSize)
      ((List.range ((f.extentSize + iso9660SectorSize - 1) / iso9660SectorSize)).map fun k =>
        f.readBlock tail (f.extentLba + (offset + k * iso9660SectorSize) % word32 / iso9660SectorSize))
      (clip f.extentSize count offset))

end Iso9660File

end DosKernel
