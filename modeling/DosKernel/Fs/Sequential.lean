import DosKernel.Fs.Copying
import DosKernel.Fs.Ext2Walk

/-! Sequential reads of an open file: where the three file systems keep the bytes of
a file, that their readers copy from there, and what a caller that reads chunk after
chunk through one descriptor puts together. -/

namespace DosKernel

open Lib

/-! ### Positions in blocks -/

/-- The block of a position that lies `k` blocks behind the block of `o`. -/
theorem block_index (o k : ℕ) {bs j : ℕ} (hj : j < bs) :
    (o - o % bs + k * bs + j) / bs = o / bs + k ∧ (o - o % bs + k * bs + j) % bs = j := by
  have h : o - o % bs + k * bs + j = bs * (o / bs + k) + j := by
    have := Nat.div_add_mod o bs
    rw [Nat.mul_add, Nat.mul_comm k]
    omega
  rw [h, Nat.mul_add_div (by omega), Nat.mul_add_mod, Nat.div_eq_of_lt hj, Nat.mod_eq_of_lt hj]
  exact ⟨rfl, rfl⟩

theorem block_lt {o n k bs size : ℕ} (h : k * bs < o % bs + n) (hle : o + n ≤ size) :
    (o / bs + k) * bs < size := by
  have := Nat.div_add_mod o bs
  rw [Nat.add_mul, Nat.mul_comm (o / bs)]
  omega

/-- A copy of `n` bytes makes at most `n` passes. -/
theorem pass_lt {o n k bs : ℕ} (hbs : 0 < bs) (hn : 0 < n) (h : k * bs < o % bs + n) : k < n := by
  have hmod := Nat.mod_lt o hbs
  obtain ⟨b, rfl⟩ : ∃ b, bs = b + 1 := ⟨bs - 1, by omega⟩
  by_contra hge
  have hmul : n * b + n ≤ k * (b + 1) := Nat.mul_le_mul_right (b + 1) (Nat.le_of_not_lt hge)
  have hle : b ≤ n * b := Nat.le_mul_of_pos_left b hn
  omega

/-! ### Where a file lies -/

namespace Ext2File
variable (f : Ext2File)

def pointer (k : ℕ) : ℕ := f.directBlockPointers.getD k 0

/-- Byte `pos` of the file, at its place on the drive. -/
def byteAt (pos : ℕ) : UInt8 :=
  let address := f.pointer (pos / f.blockSize) * f.blockSize + pos % f.blockSize
  f.driver.sector (f.startLba + address / f.driver.sectorSize) (address % f.driver.sectorSize)

/-- The file is held in direct blocks, which have less than 2 GiB, on a readable drive with
32-bit sector numbers. -/
structure Supported : Prop where
  readable : f.driver.Readable
  blocks_le : 12 * f.blockSize ≤ 2147483648
  direct : ∀ k, k * f.blockSize < f.size → f.pointer k ≠ 0
  onDrive : ∀ k, k * f.blockSize < f.size →
    f.startLba + (f.pointer k + 1) * f.blockSize / f.driver.sectorSize ≤ word32

/-- The blocks lie in the first 4 GiB of the volume. -/
def AddressesFit : Prop :=
  ∀ k, k * f.blockSize < f.size → f.pointer k * f.blockSize < word32

/-- The first `n` bytes of the file. -/
def upTo (n : ℕ) : Ext2File :=
  { f with
    size := min f.size n
    size_lt := lt_of_le_of_lt (min_le_left f.size n) f.size_lt }

end Ext2File

namespace FatFile
variable (f : FatFile)

/-- The cluster that holds the bytes of the file from `k` clusters on. -/
def clusterAt (k : ℕ) : ℕ := f.nextCluster^[k] f.cluster

/-- The first sector of a cluster, counted in logical sectors of the volume. -/
def clusterSector (cluster : ℕ) : ℕ :=
  f.reservedSectors + f.numberOfFat * f.sectorsPerFat +
    f.rootdirEntries * 32 / f.bytesPerSector + (cluster - 2) * f.sectorsPerCluster

def byteAt (pos : ℕ) : UInt8 :=
  let clusterSize := f.sectorsPerCluster * f.bytesPerSector
  let address := f.clusterSector (f.clusterAt (pos / clusterSize)) * f.bytesPerSector +
    pos % clusterSize
  f.driver.sector (f.startLba + address / f.driver.sectorSize) (address % f.driver.sectorSize)

/-- One sector per cluster, on a readable drive with 32-bit sector numbers; the chain
of the file is long enough. -/
structure Supported : Prop where
  readable : f.driver.Readable
  oneSector : f.sectorsPerCluster = 1
  size_le : f.size ≤ 65536 * (f.sectorsPerCluster * f.bytesPerSector)
  chain : ∀ k, k * f.bytesPerSector < f.size → 2 ≤ f.clusterAt k ∧ f.clusterAt k < f.invalid
  onDrive : ∀ k, k * f.bytesPerSector < f.size →
    f.startLba + f.clusterSector (f.clusterAt k) < word32

/-- The logical sectors are the sectors of the drive. -/
def AddressesFit : Prop := f.bytesPerSector = f.driver.sectorSize

end FatFile

namespace Iso9660File
variable (f : Iso9660File)

def byteAt (pos : ℕ) : UInt8 :=
  let address := f.extentLba * iso9660SectorSize + pos
  f.driver.sector (f.startLba - 1 + address / f.driver.sectorSize) (address % f.driver.sectorSize)

/-- A readable drive with sectors of 2048 bytes and 32-bit sector numbers. -/
structure Supported : Prop where
  readable : f.driver.Readable
  sectorSize : f.driver.sectorSize = iso9660SectorSize
  onDrive : ∀ k, k * iso9660SectorSize < f.extentSize → f.startLba + f.extentLba + k ≤ word32

end Iso9660File

/-! ### The readers copy from there -/

namespace Ext2File
variable {f : Ext2File}

/-- The direct blocks from the block of `offset` on. -/
def directBlocks (f : Ext2File) (t : ℕ → UInt8) (_ offset : ℕ) : List (Option (ℕ → UInt8)) :=
  ((f.directBlockPointers.drop (offset / f.blockSize)).takeWhile (· ≠ 0)).map (f.readBlock t)

theorem Supported.pointer_eq (h : f.Supported) {k : ℕ} (hk : k * f.blockSize < f.size) :
    f.directBlockPointers[k]? = some (f.pointer k) := by
  have hne := h.direct k hk
  rw [pointer, List.getD_eq_getElem?_getD] at hne ⊢
  rcases hget : f.directBlockPointers[k]? with _ | p
  · rw [hget] at hne
    exact absurd rfl hne
  · rfl

theorem Supported.size_le (h : f.Supported) : f.size ≤ 12 * f.blockSize := by
  by_contra hlt
  have hget := h.pointer_eq (k := 12) (by omega)
  rw [List.getElem?_eq_none (by rw [f.direct_length])] at hget
  cases hget

theorem directBlocks_getElem? (h : f.Supported) (t : ℕ → UInt8) {n o k : ℕ}
    (hk : (o / f.blockSize + k) * f.blockSize < f.size) :
    (f.directBlocks t n o)[k]? = some (f.readBlock t (f.pointer (o / f.blockSize + k))) := by
  have hget : ∀ i ≤ k, (f.directBlockPointers.drop (o / f.blockSize))[i]? =
      some (f.pointer (o / f.blockSize + i)) := by
    intro i hi
    rw [List.getElem?_drop]
    exact h.pointer_eq (lt_of_le_of_lt (Nat.mul_le_mul_right _ (by omega)) hk)
  rw [directBlocks, List.getElem?_map, PointerTree.takeWhile_getElem?, hget k le_rfl]
  · rfl
  · exact fun i hi => ⟨_, hget i hi, h.direct (o / f.blockSize + i)
      (lt_of_le_of_lt (Nat.mul_le_mul_right _ (by omega)) hk)⟩

/-- Byte `j` of a direct block in the buffer is the byte of the file. -/
theorem buffer_direct (h : f.Supported) (ha : f.AddressesFit) (t : ℕ → UInt8) {k j pos : ℕ}
    (hk : k * f.blockSize < f.size) (hj : j < f.blockSize) (hdiv : pos / f.blockSize = k)
    (hmod : pos % f.blockSize = j) :
    f.driver.buffer t f.blockSize
      ((List.range' (f.startLba + f.pointer k * f.blockSize % word32 / f.driver.sectorSize)
        (f.blockSize / f.driver.sectorSize)).map fun a => f.driver.sector (a % word32)) j =
      f.byteAt pos := by
  have hpos := f.driver.sectorSize_pos
  obtain ⟨q, hq⟩ : f.driver.sectorSize ∣ f.blockSize := f.sector_dvd
  have hp : f.pointer k * f.blockSize = f.driver.sectorSize * (f.pointer k * q) := by
    rw [hq]
    ring
  have hdrive := h.onDrive k hk
  have hjq : j / f.driver.sectorSize < q := Nat.div_lt_of_lt_mul (hq ▸ hj)
  rw [Nat.succ_mul, hp, hq, ← Nat.mul_add, Nat.mul_div_cancel_left _ hpos] at hdrive
  rw [IoDriver.buffer_eq t ⟨q, hq⟩ hj, Nat.mod_eq_of_lt (ha k hk), byteAt, hdiv, hmod, hp,
    Nat.mul_div_cancel_left _ hpos, Nat.mod_eq_of_lt (by omega)]
  simp only [Nat.mul_add_div hpos, Nat.mul_add_mod, Nat.add_assoc]

theorem source (h : f.Supported) (ha : f.AddressesFit) :
    BlockSource f.size f.blockSize f.byteAt f.directBlocks where
  block_pos := f.blockSize_pos
  size_lt := f.size_lt
  holds := by
    intro t n o hn hle k hk
    have hlt := block_lt hk hle
    refine ⟨_, by rw [directBlocks_getElem? h t hlt, Ext2Volume.readBlock_eq h.readable.answers], fun j hj => ?_⟩
    obtain ⟨hdiv, hmod⟩ := block_index o k hj
    exact buffer_direct h ha t hlt hj hdiv hmod
  behind := by
    intro t n o block hget
    rw [directBlocks, List.getElem?_map] at hget
    obtain ⟨p, -, hp⟩ := Option.map_eq_some_iff.mp hget
    rw [Ext2Volume.readBlock_eq h.readable.answers] at hp
    rw [← Option.some.inj hp]
    exact IoDriver.buffer_behind _ _ _
  wraps := by
    intro t n o hn ho hge
    have h1 := h.size_le
    have h2 := h.blocks_le
    have h3 := hn.2
    simp only [word32] at hge
    omega

/-- A copy that the direct blocks complete does not go on to the indirect ones. -/
theorem readBlocks_eq (t : ℕ → UInt8) {count offset : ℕ}
    (h : (copyBlocks f.blockSize (offset % f.blockSize) (f.directBlocks t count offset) count).left = 0) :
    f.readBlocks t count offset =
      copyBlocks f.blockSize (offset % f.blockSize) (f.directBlocks t count offset) count := by
  rw [directBlocks] at h ⊢
  simp only [readBlocks, Ext2Volume.readIndirect_done t offset _ (.inr h), ite_self]

theorem read_eq (h : f.Supported) (ha : f.AddressesFit) (t : ℕ → UInt8) {n : ℕ} (hn : Asked n)
    (o : ℕ) : f.read t n o = if f.size ≤ o then (0, []) else
      copyResult (copyOf f.size f.blockSize f.directBlocks t n o) := by
  rw [read]
  split_ifs with ho
  · rfl
  · rw [readBlocks_eq t ((source h ha).copyOf_full t hn (by omega)).1]
    rfl

theorem Supported.upTo (h : f.Supported) (n : ℕ) : (f.upTo n).Supported := by
  have hlt : ∀ k, k * f.blockSize < min f.size n → k * f.blockSize < f.size := fun k hk =>
    lt_of_lt_of_le hk (min_le_left f.size n)
  exact ⟨h.readable, h.blocks_le, fun k hk => h.direct k (hlt k hk), fun k hk => h.onDrive k (hlt k hk)⟩

/-- Inside the first bytes it does not matter that there are more. -/
theorem read_upTo (f : Ext2File) (t : ℕ → UInt8) {n o s : ℕ} (hn : 0 < n) (h : o + n ≤ s) :
    (f.upTo s).read t n o = f.read t n o := by
  have hsize : (f.upTo s).size = min f.size s := rfl
  rw [read, read, hsize, clip_min f.size_lt h]
  by_cases ho : f.size ≤ o
  · rw [if_pos ho, if_pos (by omega)]
  · rw [if_neg ho, if_neg (by omega)]
    rfl

theorem readBlocks_total (f : Ext2File) (t : ℕ → UInt8) (count offset : ℕ) :
    (f.readBlocks t count offset).stored.length + (f.readBlocks t count offset).left = count := by
  rw [readBlocks_walk]
  exact copyBlocks_stored_le _ _ _ _

end Ext2File

namespace FatFile
variable {f : FatFile}

/-- The clusters from the one of `offset` on. -/
def chainBlocks (f : FatFile) (t : ℕ → UInt8) (count offset : ℕ) : List (Option (ℕ → UInt8)) :=
  (f.clusterChain count (f.skipClusters (offset / f.bytesPerSector) f.cluster)).map (f.readCluster t)

theorem skipClusters_eq {passes : ℕ} {cluster : ℕ}
    (h : ∀ k < passes, f.nextCluster^[k] cluster < f.invalid) :
    f.skipClusters passes cluster = f.nextCluster^[passes] cluster := by
  induction passes generalizing cluster with
  | zero => rfl
  | succ passes ih =>
    rw [skipClusters, if_pos (show cluster < f.invalid from h 0 (Nat.succ_pos _)), ih fun k hk => ?_]
    · rfl
    · exact h (k + 1) (by omega)

theorem clusterChain_getElem? {passes : ℕ} {cluster k : ℕ} (hk : k < passes)
    (h : ∀ i ≤ k, f.nextCluster^[i] cluster < f.invalid) :
    (f.clusterChain passes cluster)[k]? = some (f.nextCluster^[k] cluster) := by
  induction passes generalizing cluster k with
  | zero => omega
  | succ passes ih =>
    rw [clusterChain, if_pos (show cluster < f.invalid from h 0 (Nat.zero_le _))]
    cases k with
    | zero => rfl
    | succ k =>
      rw [List.getElem?_cons_succ, ih (by omega) fun i hi => ?_]
      · rfl
      · exact h (i + 1) (by omega)

theorem chainBlocks_getElem? (h : f.Supported) (t : ℕ → UInt8) {n o k : ℕ} (hkn : k < n)
    (hk : (o / f.bytesPerSector + k) * f.bytesPerSector < f.size) :
    (f.chainBlocks t n o)[k]? = some (f.readCluster t (f.clusterAt (o / f.bytesPerSector + k))) := by
  have hchain : ∀ i ≤ o / f.bytesPerSector + k, f.clusterAt i < f.invalid := fun i hi =>
    (h.chain i (lt_of_le_of_lt (Nat.mul_le_mul_right _ hi) hk)).2
  have hadd : ∀ i, f.nextCluster^[i] (f.clusterAt (o / f.bytesPerSector)) =
      f.clusterAt (o / f.bytesPerSector + i) := fun i => by
    rw [clusterAt, clusterAt, Nat.add_comm, Function.iterate_add_apply]
  rw [chainBlocks, skipClusters_eq fun i hi => hchain i (by omega), List.getElem?_map,
    clusterChain_getElem? hkn fun i hi => by rw [← clusterAt, hadd]; exact hchain _ (by omega),
    ← clusterAt, hadd]
  rfl

theorem readCluster_eq (h : f.driver.Readable) (t : ℕ → UInt8) (cluster : ℕ) :
    f.readCluster t cluster = some (f.driver.buffer t f.driver.sectorSize
      [f.driver.sector (((cluster + word32 - 2) * f.sectorsPerCluster + f.rootdirSector +
        f.rootdirEntries * 32 / f.bytesPerSector) % word32)]) := by
  rw [readCluster, h.readSector]
  rfl

/-- The sector that `fat_read` computes for a cluster of the file is its sector. -/
theorem sector_eq (h : f.Supported) {k : ℕ} (hk : k * f.bytesPerSector < f.size) :
    ((f.clusterAt k + word32 - 2) * f.sectorsPerCluster + f.rootdirSector +
      f.rootdirEntries * 32 / f.bytesPerSector) % word32 =
      f.startLba + f.clusterSector (f.clusterAt k) := by
  have hdrive := h.onDrive k hk
  have htwo := (h.chain k hk).1
  rw [← Nat.mod_eq_of_lt hdrive, clusterSector, rootdirSector, h.oneSector]
  simp only [Nat.mul_one]
  rw [show f.clusterAt k + word32 - 2 = f.clusterAt k - 2 + word32 by omega]
  conv_rhs => rw [← Nat.add_mod_right]
  congr 1
  omega

theorem buffer_cluster (h : f.Supported) (ha : f.AddressesFit) (t : ℕ → UInt8) {k j pos : ℕ}
    (hj : j < f.bytesPerSector) (hdiv : pos / f.bytesPerSector = k)
    (hmod : pos % f.bytesPerSector = j) :
    f.driver.buffer t f.driver.sectorSize
      [f.driver.sector (f.startLba + f.clusterSector (f.clusterAt k))] j = f.byteAt pos := by
  have hpos := f.bytes_pos
  rw [byteAt, h.oneSector, Nat.one_mul, hdiv, hmod]
  rw [AddressesFit] at ha
  simp only [IoDriver.buffer, ← ha, if_pos hj, Nat.div_eq_of_lt hj, Nat.mod_eq_of_lt hj]
  rw [Nat.mul_comm, Nat.mul_add_div hpos, Nat.mul_add_mod, Nat.div_eq_of_lt hj,
    Nat.mod_eq_of_lt hj]
  rfl

theorem source (h : f.Supported) (ha : f.AddressesFit) :
    BlockSource f.size f.bytesPerSector f.byteAt f.chainBlocks where
  block_pos := f.bytes_pos
  size_lt := f.size_lt
  holds := by
    intro t n o hn hle k hk
    have hlt := block_lt hk hle
    have hkn := pass_lt f.bytes_pos hn hk
    refine ⟨_, by rw [chainBlocks_getElem? h t hkn hlt, readCluster_eq h.readable], fun j hj => ?_⟩
    obtain ⟨hdiv, hmod⟩ := block_index o k hj
    rw [sector_eq h hlt]
    exact buffer_cluster h ha t hj hdiv hmod
  behind := by
    intro t n o block hget
    rw [chainBlocks, List.getElem?_map] at hget
    obtain ⟨c, -, hc⟩ := Option.map_eq_some_iff.mp hget
    rw [readCluster_eq h.readable] at hc
    rw [← Option.some.inj hc, show f.bytesPerSector = f.driver.sectorSize from ha]
    exact IoDriver.buffer_behind _ _ _
  wraps := by
    intro t n o hn ho hge
    have h1 := h.size_le
    have h2 := f.bytes_le
    have h3 := hn.2
    rw [h.oneSector] at h1
    simp only [word32] at hge
    omega

end FatFile

namespace Iso9660File
variable {f : Iso9660File}

/-- The blocks of the extent from the one of `offset` on, one for each pass that the
loop can make. -/
def extentBlocks (f : Iso9660File) (t : ℕ → UInt8) (_ offset : ℕ) : List (Option (ℕ → UInt8)) :=
  (List.range ((f.extentSize + iso9660SectorSize - 1) / iso9660SectorSize)).map fun k =>
    f.readBlock t (f.extentLba + (offset + k * iso9660SectorSize) % word32 / iso9660SectorSize)

theorem readBlock_eq (h : f.Supported) (t : ℕ → UInt8) (lba : ℕ) :
    f.readBlock t lba = some (f.driver.buffer t iso9660SectorSize
      [f.driver.sector ((f.startLba + lba + word32 - 1) % word32)]) := by
  have hone : iso9660SectorSize / f.driver.sectorSize = 1 := by rw [h.sectorSize]; decide
  rw [readBlock, h.readable.readSectors, hone]
  rfl

theorem extentBlocks_getElem? (t : ℕ → UInt8) (n o : ℕ) {k : ℕ}
    (hk : k * iso9660SectorSize < f.extentSize) :
    (f.extentBlocks t n o)[k]? = some (f.readBlock t (f.extentLba +
      (o + k * iso9660SectorSize) % word32 / iso9660SectorSize)) := by
  have hlt : k < (f.extentSize + iso9660SectorSize - 1) / iso9660SectorSize := by
    rw [iso9660SectorSize] at hk ⊢
    omega
  rw [extentBlocks, List.getElem?_map, List.getElem?_range hlt]
  rfl

theorem buffer_extent (h : f.Supported) (t : ℕ → UInt8) {k j pos : ℕ}
    (hk : k * iso9660SectorSize < f.extentSize) (hj : j < iso9660SectorSize)
    (hdiv : pos / iso9660SectorSize = k) (hmod : pos % iso9660SectorSize = j) :
    f.driver.buffer t iso9660SectorSize
      [f.driver.sector ((f.startLba + (f.extentLba + k) + word32 - 1) % word32)] j =
      f.byteAt pos := by
  have hdrive := h.onDrive k hk
  have hpos := f.start_pos
  have hlba : (f.startLba + (f.extentLba + k) + word32 - 1) % word32 =
      f.startLba - 1 + (f.extentLba + k) := by
    rw [show f.startLba + (f.extentLba + k) + word32 - 1 =
      f.startLba - 1 + (f.extentLba + k) + word32 by omega, Nat.add_mod_right]
    exact Nat.mod_eq_of_lt (by omega)
  have hsize : 0 < iso9660SectorSize := by decide
  rw [byteAt, h.sectorSize, hlba, IoDriver.buffer, if_pos hj, h.sectorSize, Nat.div_eq_of_lt hj,
    Nat.mod_eq_of_lt hj]
  simp only [Nat.mul_comm f.extentLba, Nat.mul_add_div hsize, Nat.mul_add_mod, hdiv, hmod]
  rfl

theorem source (h : f.Supported) :
    BlockSource f.extentSize iso9660SectorSize f.byteAt f.extentBlocks where
  block_pos := by decide
  size_lt := f.size_lt
  holds := by
    intro t n o hn hle k hk
    have hlt := block_lt hk hle
    have hindex : (o + k * iso9660SectorSize) % word32 / iso9660SectorSize =
        o / iso9660SectorSize + k := by
      have hsize := f.size_lt
      rw [Nat.mod_eq_of_lt, Nat.add_mul_div_right _ _ (by decide)]
      simp only [iso9660SectorSize, word32] at *
      omega
    have hk' : k * iso9660SectorSize < f.extentSize :=
      lt_of_le_of_lt (Nat.mul_le_mul_right _ (Nat.le_add_left _ _)) hlt
    refine ⟨_, by rw [extentBlocks_getElem? t n o hk', hindex, readBlock_eq h], fun j hj => ?_⟩
    obtain ⟨hdiv, hmod⟩ := block_index o k hj
    exact buffer_extent h t hlt hj hdiv hmod
  behind := by
    intro t n o block hget
    rw [extentBlocks, List.getElem?_map] at hget
    obtain ⟨k, -, hk⟩ := Option.map_eq_some_iff.mp hget
    rw [readBlock_eq h] at hk
    rw [← Option.some.inj hk]
    exact IoDriver.buffer_behind _ _ _
  wraps := by
    -- a sum can only wrap in the upper half of a file that is longer than the request
    intro t n o hn ho hge k hk
    have hlt := f.size_lt
    have hlong : n < f.extentSize := by
      have := hn.2
      simp only [word32] at *
      omega
    exact ⟨_, by rw [extentBlocks_getElem? t n o (by omega), readBlock_eq h]⟩

end Iso9660File

/-! ### Reading through a descriptor -/

/-- An open regular file of one of the three file systems. -/
inductive OpenFile
  | ext2 (f : Ext2File)
  | fat (f : FatFile)
  | iso9660 (f : Iso9660File)

namespace OpenFile

def size : OpenFile → ℕ
  | ext2 f => f.size
  | fat f => f.size
  | iso9660 f => f.extentSize

def blockSize : OpenFile → ℕ
  | ext2 f => f.blockSize
  | fat f => f.bytesPerSector
  | iso9660 _ => iso9660SectorSize

def byteAt : OpenFile → ℕ → UInt8
  | ext2 f => f.byteAt
  | fat f => f.byteAt
  | iso9660 f => f.byteAt

theorem size_lt (file : OpenFile) : file.size < word32 := by
  cases file with
  | ext2 f => exact f.size_lt
  | fat f => exact f.size_lt
  | iso9660 f => exact f.size_lt

def contents (file : OpenFile) : List UInt8 := slice file.byteAt 0 file.size

/-- `fs->read` of the file, with what lies behind its buffer. -/
def readBytes : OpenFile → (t : ℕ → UInt8) → (count offset : ℕ) → ℤ × List UInt8
  | ext2 f => f.read
  | fat f => f.read
  | iso9660 f => f.read

def Supported : OpenFile → Prop
  | ext2 f => f.Supported
  | fat f => f.Supported
  | iso9660 f => f.Supported

def AddressesFit : OpenFile → Prop
  | ext2 f => f.AddressesFit
  | fat f => f.AddressesFit
  | iso9660 _ => True

theorem reader {file : OpenFile} (h : file.Supported) (ha : file.AddressesFit) :
    Reader Asked (ReadFits file.size file.blockSize) file.byteAt file.size fun t n o =>
      returned (file.readBytes t n o) := by
  cases file with
  | ext2 f =>
    have hr := (Ext2File.source h ha).reader
    exact
      { past := fun t n o ho => by 
          rw [readBytes, Ext2File.read, if_pos (show f.size ≤ o from ho)]
          rfl
        fit := fun t n o hn ho hfit => by
          rw [readBytes, Ext2File.read_eq h ha t hn]
          exact hr.fit t n o hn ho hfit
        unfit := fun n o hn ho hfit => by
          obtain ⟨t, ht⟩ := hr.unfit n o hn ho hfit
          exact ⟨t, by rwa [readBytes, Ext2File.read_eq h ha t hn]⟩ }
  | fat f => exact (FatFile.source h ha).reader
  | iso9660 f => exact (Iso9660File.source h).reader

/-- A read is past the end, or it is a copy of at most the bytes asked for. -/
theorem readBytes_cases (file : OpenFile) (t : ℕ → UInt8) (n o : ℕ) :
    file.readBytes t n o = (0, []) ∨
      ∃ c, c.stored.length ≤ n ∧ file.readBytes t n o = copyResult c := by
  have hclip := clip_le file.size n o
  rcases Nat.lt_or_ge o file.size with ho | ho
  · refine Or.inr ?_
    cases file with
    | ext2 f =>
      have h := f.readBlocks_total t (clip f.size n o) o
      exact ⟨_, by simp only [size] at hclip; omega, if_neg (Nat.not_le.mpr ho)⟩
    | fat f =>
      refine ⟨_, ?_, if_neg (Nat.not_le.mpr ho)⟩
      exact (Nat.le_of_add_right_le (copyBlocks_stored_le _ _ _ _).le).trans hclip
    | iso9660 f =>
      refine ⟨_, ?_, if_neg (Nat.not_le.mpr ho)⟩
      exact (Nat.le_of_add_right_le (copyBlocks_stored_le _ _ _ _).le).trans hclip
  · refine Or.inl ?_
    cases file <;> exact if_pos ho

theorem readBytes_length_le (file : OpenFile) (t : ℕ → UInt8) (n o : ℕ) :
    (file.readBytes t n o).2.length ≤ n := by
  rcases file.readBytes_cases t n o with h | ⟨c, hc, h⟩
  · rw [h]
    exact Nat.zero_le _
  · rw [h]
    exact hc

theorem readBytes_toNat_le (file : OpenFile) (t : ℕ → UInt8) (n o : ℕ) :
    (file.readBytes t n o).1.toNat ≤ (file.readBytes t n o).2.length := by
  rcases file.readBytes_cases t n o with h | ⟨c, -, h⟩
  · rw [h]
    exact le_rfl
  · rw [h]
    exact copyResult_toNat_le c

/-- The mounted file system as the descriptor of the file sees it; `tail o` is what
lies behind the buffer during a read at offset `o`. -/
def fileSystem (file : OpenFile) (tail : ℕ → ℕ → UInt8) : FileSystem where
  read := fun count offset => file.readBytes (tail offset) count offset
  readdir := fun _ => (-enotdir, [], 0, 0)
  read_le := fun _ _ => file.readBytes_length_le _ _ _
  name_lt := fun _ => by decide

/-- A descriptor of the file at an offset; a freshly opened one is at offset 0. -/
def descriptor (file : OpenFile) (tail : ℕ → ℕ → UInt8) (offset : ℕ) : FileDescriptor where
  used := true
  type := .ifreg
  fs := file.fileSystem tail
  tty := none
  fb := none
  offset := offset
  accessRead := true

end OpenFile

/-- The bytes that successive `read` calls return. -/
def readAll : FileDescriptor → List ℕ → List UInt8
  | _, [] => []
  | fd, n :: ns =>
    match read fd n with
    | none => []
    | some (ret, fd', stored) => (stored.map Prod.fst).take ret.toNat ++ readAll fd' ns

theorem returned_length {r : ℤ × List UInt8} (h : r.1.toNat ≤ r.2.length) :
    (returned r).length = r.1.toNat := by
  rw [returned, List.length_take, Nat.min_eq_left h]

theorem OpenFile.returned_length_le (file : OpenFile) (t : ℕ → UInt8) (n o : ℕ) :
    (returned (file.readBytes t n o)).length ≤ n := by
  rw [returned_length (file.readBytes_toNat_le t n o)]
  exact (file.readBytes_toNat_le t n o).trans (file.readBytes_length_le t n o)

/-- The calls through a descriptor are reads of the file, each at the offset that the
last one left. -/
theorem readAll_eq (file : OpenFile) (tail : ℕ → ℕ → UInt8) (o : ℕ) (ns : List ℕ) :
    readAll (file.descriptor tail o) ns =
      chunks advanced (fun n o => returned (file.readBytes (tail o) n o)) o ns := by
  induction ns generalizing o with
  | nil => rfl
  | cons n ns ih =>
    have hread : read (file.descriptor tail o) n =
        some ((file.readBytes (tail o) n o).1,
          (file.descriptor tail o).advance (file.readBytes (tail o) n o).1,
          (file.readBytes (tail o) n o).2.zipIdx 0) := rfl
    have hadv : (file.descriptor tail o).advance (file.readBytes (tail o) n o).1 =
        file.descriptor tail (advanced o (returned (file.readBytes (tail o) n o)).length) := by
      rw [returned_length (file.readBytes_toNat_le _ _ _), FileDescriptor.advance, advanced]
      by_cases hpos : 0 < (file.readBytes (tail o) n o).1
      · rw [if_pos hpos, if_neg (by omega)]
        rfl
      · rw [if_neg hpos, if_pos (by omega)]
    rw [readAll, hread, chunks, ← ih, ← hadv]
    simp only [returned, List.zipIdx_map_fst]

/-- Successive reads give a prefix of the file, whatever lies behind the buffers,
exactly when every read before the end of the file fits. -/
theorem readAll_prefix_iff (file : OpenFile) (h : file.Supported) (ha : file.AddressesFit)
    (ns : List ℕ) (hns : ∀ n ∈ ns, Asked n) :
    (∀ tail, readAll (file.descriptor tail 0) ns <+: file.contents) ↔
      ReadsFit (ReadFits file.size file.blockSize) file.size 0 ns := by
  have hiff := (OpenFile.reader h ha).chunks_prefix_iff
    (fun _ _ => advanced_eq file.size_lt) (Nat.zero_le _) hns
  simp only [readAll_eq]
  exact hiff

theorem readAll_iff (file : OpenFile) (h : file.Supported) (ha : file.AddressesFit)
    {sizes : List ℕ} (hsizes : ∀ n ∈ sizes, Asked n) :
    (∀ tail, readAll (file.descriptor tail 0) sizes <+: file.contents ∧
      (file.contents.length ≤ sizes.sum →
        readAll (file.descriptor tail 0) sizes = file.contents)) ↔
      ReadsFit (ReadFits file.size file.blockSize) file.size 0 sizes := by
  rw [← readAll_prefix_iff file h ha sizes hsizes]
  refine ⟨fun hall tail => (hall tail).1, fun hpre tail => ⟨hpre tail, fun hlen => ?_⟩⟩
  have heq := (OpenFile.reader h ha).chunks_eq (fun _ _ => advanced_eq file.size_lt) tail
    (Nat.zero_le _) hsizes ((readAll_prefix_iff file h ha sizes hsizes).mp hpre)
  rw [readAll_eq, heq, OpenFile.contents]
  rw [OpenFile.contents, slice_length] at hlen
  congr 1
  omega

/-! ### Reads of the first bytes -/

theorem readsFit_min_iff {size bs s o : ℕ} {ns : List ℕ} (hns : ∀ n ∈ ns, Asked n)
    (hs : o + ns.sum ≤ s) :
    ReadsFit (ReadFits (min size s) bs) (min size s) o ns ↔ ReadsFit (ReadFits size bs) size o ns := by
  induction ns generalizing o with
  | nil => rfl
  | cons n ns ih =>
    rw [List.sum_cons] at hs
    have hpos := (hns n List.mem_cons_self).1
    have hnext : min (o + n) (min size s) = min (o + n) size := by omega
    have hcount : min n (min size s - o) = min n (size - o) := by omega
    have hend : min size s ≤ o ↔ size ≤ o := by omega
    rw [ReadsFit, ReadsFit, hnext, ih (fun m hm => hns m (List.mem_cons_of_mem n hm)) (by omega), hend,
      ReadFits, ReadFits, hcount]

namespace Ext2File
variable {f : Ext2File} {sizes : List ℕ}

theorem readAll_upTo (f : Ext2File) (hsizes : ∀ n ∈ sizes, Asked n) (tail : ℕ → ℕ → UInt8) :
    readAll ((OpenFile.ext2 (f.upTo sizes.sum)).descriptor tail 0) sizes =
      readAll ((OpenFile.ext2 f).descriptor tail 0) sizes := by
  rw [readAll_eq, readAll_eq]
  refine chunks_congr advanced_le (fun n o => (OpenFile.ext2 f).returned_length_le _ n o)
    (fun n hn o ho => ?_) (Nat.zero_add _).le
  exact congrArg returned (read_upTo f (tail o) (hsizes n hn).1 ho)

theorem contents_upTo (f : Ext2File) (n : ℕ) :
    (OpenFile.ext2 (f.upTo n)).contents = (OpenFile.ext2 f).contents.take n := by
  rw [OpenFile.contents, OpenFile.contents, take_slice, Nat.min_comm]
  rfl

/-- What is read of a file depends on the blocks of its first bytes only. -/
theorem readAll_upTo_iff (h : f.Supported) (ha : (f.upTo sizes.sum).AddressesFit)
    (hsizes : ∀ n ∈ sizes, Asked n) :
    (∀ tail, readAll ((OpenFile.ext2 f).descriptor tail 0) sizes <+: (OpenFile.ext2 f).contents ∧
      ((OpenFile.ext2 f).contents.length ≤ sizes.sum →
        readAll ((OpenFile.ext2 f).descriptor tail 0) sizes = (OpenFile.ext2 f).contents)) ↔
      ReadsFit (ReadFits f.size f.blockSize) f.size 0 sizes := by
  have hcut : (OpenFile.ext2 (f.upTo sizes.sum)).Supported := h.upTo _
  rw [← readsFit_min_iff hsizes (Nat.zero_add _).le]
  constructor
  · intro hall
    refine (readAll_prefix_iff (.ext2 (f.upTo sizes.sum)) hcut ha sizes hsizes).mp fun tail => ?_
    have hlength : (readAll ((OpenFile.ext2 f).descriptor tail 0) sizes).length ≤ sizes.sum := by
      rw [readAll_eq]
      exact chunks_length_le (fun n o => (OpenFile.ext2 f).returned_length_le _ n o) 0 sizes
    rw [readAll_upTo f hsizes, contents_upTo]
    exact List.prefix_take_iff.mpr ⟨(hall tail).1, hlength⟩
  · intro hfit tail
    obtain ⟨hfront, hwhole⟩ := (readAll_iff (.ext2 (f.upTo sizes.sum)) hcut ha hsizes).mpr hfit tail
    rw [readAll_upTo f hsizes, contents_upTo] at hfront hwhole
    refine ⟨hfront.trans (List.take_prefix _ _), fun hle => ?_⟩
    rw [List.take_of_length_le hle] at hwhole
    exact hwhole hle

end Ext2File

/-- The reader computes the addresses of the first `n` bytes right. -/
def OpenFile.AddressesFitUpTo : OpenFile → ℕ → Prop
  | ext2 f, n => (f.upTo n).AddressesFit
  | fat f, _ => f.AddressesFit
  | iso9660 _, _ => True

/-- The bytes of successive `read` calls on a freshly opened file are a prefix of the
file, and all of it once the sizes sum to its length, exactly when every read before
the end of the file fits. -/
theorem sequential_reads_iff (file : OpenFile) (h : file.Supported) {sizes : List ℕ}
    (ha : file.AddressesFitUpTo sizes.sum) (hsizes : ∀ n ∈ sizes, Asked n) :
    (∀ tail, readAll (file.descriptor tail 0) sizes <+: file.contents ∧
      (file.contents.length ≤ sizes.sum →
        readAll (file.descriptor tail 0) sizes = file.contents)) ↔
      ReadsFit (ReadFits file.size file.blockSize) file.size 0 sizes := by
  cases file with
  | ext2 f => exact Ext2File.readAll_upTo_iff h ha hsizes
  | fat f => exact readAll_iff (.fat f) h ha hsizes
  | iso9660 f => exact readAll_iff (.iso9660 f) h ha hsizes

/-- A drive whose sectors of `size` bytes hold their own number. -/
def numberedDrive (size : ℕ) (h : 0 < size) : IoDriver where
  sectorSize := size
  sector := fun lba _ => UInt8.ofNat lba
  fails := fun _ _ => false
  sectorSize_pos := h

/-- A file of 1500 bytes in the blocks 20 and 31 of an ext2 volume. -/
def ext2Example : Ext2File where
  driver := numberedDrive 512 sector512_pos
  startLba := 63
  log2BlockSize := 0
  size := 1500
  directBlockPointers := [20, 31, 0, 0, 0, 0, 0, 0, 0, 0, 0, 0]
  singlyIndirect := 0
  doublyIndirect := 0
  triplyIndirect := 0
  log2_le := smallestBlock_le
  sector_dvd := ⟨2, rfl⟩
  size_lt := by decide
  direct_length := rfl

theorem ext2Example_block {k : ℕ} (h : k * ext2Example.blockSize < ext2Example.size) :
    k = 0 ∨ k = 1 := by
  have : k * 1024 < 1500 := h
  omega

theorem ext2Example_supported : ext2Example.Supported := by
  refine ⟨fun _ _ => rfl, by decide, fun k hk => ?_, fun k hk => ?_⟩
  · rcases ext2Example_block hk with rfl | rfl <;> decide
  · rcases ext2Example_block hk with rfl | rfl <;> decide

/-- A file of 700 bytes in the clusters 2 and 3 of a FAT16 volume. -/
def fatExample : FatFile where
  driver := numberedDrive 512 sector512_pos
  fat12 := false
  startLba := 63
  bytesPerSector := 512
  sectorsPerCluster := 1
  reservedSectors := 1
  numberOfFat := 2
  sectorsPerFat := 20
  rootdirEntries := 512
  bitmap := fun i => if i = 4 then 3 else if i = 6 ∨ i = 7 then 0xff else 0
  cluster := 2
  size := 700
  bytes_pos := sector512_pos
  bytes_le := sector512_le
  sector_dvd := ⟨1, rfl⟩
  rootdir_dvd := ⟨32, rfl⟩
  size_lt := by decide

theorem fatExample_supported : fatExample.Supported := by
  have hcluster : ∀ k, k * fatExample.bytesPerSector < fatExample.size → k = 0 ∨ k = 1 := by
    intro k hk
    have : k * 512 < 700 := hk
    omega
  refine ⟨fun _ _ => rfl, rfl, by decide, fun k hk => ?_, fun k hk => ?_⟩
  · rcases hcluster k hk with rfl | rfl <;> decide
  · rcases hcluster k hk with rfl | rfl <;> decide

/-- A file of 3000 bytes on an ISO 9660 volume. -/
def iso9660Example : Iso9660File where
  driver := numberedDrive 2048 sector2048_pos
  startLba := 1
  extentLba := 24
  extentSize := 3000
  start_pos := Nat.one_pos
  sector_dvd := ⟨1, rfl⟩
  size_lt := by decide

theorem iso9660Example_supported : iso9660Example.Supported := by
  refine ⟨fun _ _ => rfl, rfl, fun k hk => ?_⟩
  have : k * 2048 < 3000 := hk
  obtain rfl | rfl : k = 0 ∨ k = 1 := by omega
  · decide
  · decide

/-- Reads that leave a block only from its boundary put the files together. -/
theorem sequential_reads_of_fit :
    readAll ((OpenFile.ext2 ext2Example).descriptor (fun _ _ => 0xff) 0) [1000, 24, 600] =
      (OpenFile.ext2 ext2Example).contents ∧
    readAll ((OpenFile.fat fatExample).descriptor (fun _ _ => 0xff) 0) [512, 188] =
      (OpenFile.fat fatExample).contents ∧
    readAll ((OpenFile.iso9660 iso9660Example).descriptor (fun _ _ => 0xff) 0) [48, 2000, 4000] =
      (OpenFile.iso9660 iso9660Example).contents := by
  have hext2 : (OpenFile.ext2 ext2Example).AddressesFitUpTo [1000, 24, 600].sum := fun k hk => by
    rcases ext2Example_block (lt_of_lt_of_le hk (min_le_left _ _)) with rfl | rfl <;> decide
  refine ⟨?_, ?_, ?_⟩
  · refine (((sequential_reads_iff (.ext2 ext2Example) ext2Example_supported hext2
      (by decide)).mpr (by decide)) _).2 ?_
    rw [OpenFile.contents, slice_length]
    decide
  · refine (((sequential_reads_iff (.fat fatExample) fatExample_supported rfl
      (by decide)).mpr (by decide)) _).2 ?_
    rw [OpenFile.contents, slice_length]
    decide
  · refine (((sequential_reads_iff (.iso9660 iso9660Example) iso9660Example_supported
      trivial (by decide)).mpr (by decide)) _).2 ?_
    rw [OpenFile.contents, slice_length]
    decide

/-- The second of two reads starts inside the first block and ends in the second
one: its bytes from the block boundary on come from behind the buffer. -/
theorem sequential_reads_broken :
    ¬ ∀ (file : OpenFile) (tail : ℕ → ℕ → UInt8) (sizes : List ℕ), file.Supported →
      (∀ n ∈ sizes, Asked n) → readAll (file.descriptor tail 0) sizes <+: file.contents ∧
        (file.contents.length ≤ sizes.sum →
          readAll (file.descriptor tail 0) sizes = file.contents) := by
  intro h
  have hfit := (readAll_prefix_iff (.iso9660 iso9660Example) iso9660Example_supported
    trivial [1000, 2000] (by decide)).mp fun tail =>
      (h (.iso9660 iso9660Example) tail [1000, 2000] iso9660Example_supported (by decide)).1
  exact absurd hfit (by decide)

end DosKernel
