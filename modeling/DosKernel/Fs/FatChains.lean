import DosKernel.Fs.FatTable
import DosKernel.Fs.Retries

/-! The contents of a FAT file, cluster by cluster. `fat_read` reads one sector of a cluster and
then follows the chain. -/

namespace DosKernel

open Lib

namespace FatFile
variable (f : FatFile)

/-- The file on a drive with other contents. -/
def holding (c : ℕ → ℕ → UInt8) : FatFile :=
  { f with driver := f.driver.holding c, sector_dvd := f.sector_dvd }

/-- The chain of the file: so many clusters of the volume, enough for its size, and then a value
that ends a chain. -/
structure ValidChain (length : ℕ) : Prop where
  clusters : ∀ k < length, 2 ≤ f.clusterAt k ∧ f.clusterAt k < f.invalid
  ends : f.invalid ≤ f.clusterAt length
  onDrive : ∀ k < length,
    f.startLba + f.clusterSector (f.clusterAt k) + f.sectorsPerCluster ≤ word32
  size_le : f.size ≤ length * (f.sectorsPerCluster * f.bytesPerSector)

/-- The sectors before the clusters are those of the volume. -/
def SameTables (c : ℕ → ℕ → UInt8) : Prop :=
  ∀ a < f.startLba + f.clusterSector 2, c a = f.driver.sector a

/-- A read from the start gives as many bytes of the clusters, one behind the other, as are asked
for and the file has, whatever the clusters hold. -/
def ReadsStart (count : ℕ) : Prop := ∀ tail c, f.SameTables c → (f.holding c).read tail count 0 =
  (((min count f.size : ℕ) : ℤ), slice (f.holding c).byteAt 0 (min count f.size))

variable {f} {length count : ℕ}

theorem clusterChain_holding (c : ℕ → ℕ → UInt8) (passes cluster : ℕ) :
    (f.holding c).clusterChain passes cluster = f.clusterChain passes cluster := by
  induction passes generalizing cluster with
  | zero => rfl
  | succ passes ih =>
    rw [clusterChain, clusterChain, ih]
    rfl

theorem clusterChain_eq (h : ∀ k < length, f.nextCluster^[k] f.cluster < f.invalid)
    (hend : f.invalid ≤ f.nextCluster^[length] f.cluster) (passes : ℕ) :
    f.clusterChain passes f.cluster =
      (List.range (min passes length)).map fun k => f.nextCluster^[k] f.cluster := by
  generalize f.cluster = cluster at h hend ⊢
  induction passes generalizing cluster length with
  | zero => simp [clusterChain]
  | succ passes ih =>
    rw [clusterChain]
    cases length with
    | zero =>
      rw [if_neg (show ¬ cluster < f.invalid from Nat.not_lt.mpr hend)]
      simp
    | succ length =>
      rw [if_pos (show cluster < f.invalid from h 0 (Nat.succ_pos _)),
        ih _ (fun k hk => h (k + 1) (Nat.succ_lt_succ hk)) hend, Nat.succ_min_succ,
        List.range_succ_eq_map, List.map_cons, List.map_map]
      rfl

theorem readCluster_holding (hread : f.driver.Readable)
    (hsector : f.driver.sectorSize = f.bytesPerSector) (tail : ℕ → UInt8) (c : ℕ → ℕ → UInt8)
    {cluster a : ℕ} (ha : ((cluster + word32 - 2) * f.sectorsPerCluster + f.rootdirSector +
      f.rootdirEntries * 32 / f.bytesPerSector) % word32 = a) :
    (f.holding c).readCluster tail cluster =
      some (f.driver.buffer tail f.bytesPerSector [c a]) := by
  have hread' : (f.holding c).driver.Readable := hread
  have hsize : (f.holding c).driver.sectorSize = f.bytesPerSector := hsector
  rw [readCluster_eq hread', hsize, ← ha]
  rfl

theorem copyBlocks_sectors (hsector : f.driver.sectorSize = f.bytesPerSector)
    (s : ℕ → ℕ → UInt8) (tail : ℕ → UInt8) (count length : ℕ) :
    copyBlocks f.bytesPerSector 0 ((List.range (min count length)).map fun k =>
        some (f.driver.buffer tail f.bytesPerSector [s k])) count =
      ⟨slice (fun i => s (i / f.bytesPerSector) (i % f.bytesPerSector)) 0
        (min count (length * f.bytesPerSector)), count - min count (length * f.bytesPerSector), true⟩ := by
  have hpos := f.bytes_pos
  have hmin : min count (min count length * f.bytesPerSector) =
      min count (length * f.bytesPerSector) := by
    have hle := Nat.le_mul_of_pos_right count hpos
    rw [← Nat.mul_min_mul_right]
    omega
  have hcopy := copyBlocks_map_some hpos (fun k => f.driver.buffer tail f.bytesPerSector [s k])
    (List.range (min count length)) 0 count
  rw [List.length_range, hmin] at hcopy
  rw [hcopy]
  congr 1
  apply slice_congr
  intro i hi
  have hmod := Nat.mod_lt i hpos
  have hindex : i / f.bytesPerSector < min count length := by
    rw [Nat.div_lt_iff_lt_mul hpos]
    omega
  have hdrive : i % f.bytesPerSector < f.driver.sectorSize := hsector ▸ hmod
  simp only [Nat.zero_add]
  rw [List.getD_eq_getElem?_getD, List.getElem?_range hindex, Option.getD_some, IoDriver.buffer,
    if_pos hmod, Nat.div_eq_of_lt hdrive, Nat.mod_eq_of_lt hdrive]
  rfl

namespace ValidChain
variable (h : f.ValidChain length)
include h

theorem chained {k : ℕ} (hk : k < length) : f.Chained k :=
  fun i hi => (h.clusters i (hi.trans_lt hk)).2

/-- A chain that ends is shorter than the table allows. -/
theorem length_le : length ≤ 65536 := by
  rcases Nat.eq_zero_or_pos length with rfl | hpos
  · exact Nat.zero_le _
  · have hlt : length - 1 < f.invalid :=
      (h.chained (Nat.sub_one_lt_of_lt hpos)).lt_bound ⟨length, Nat.not_lt.mpr h.ends⟩
    have hinvalid : f.invalid ≤ 65528 := by
      rw [invalid]
      split_ifs <;> decide
    omega

/-- The sector that is read for a cluster is its first one. -/
theorem sector_eq (hcluster : 0 < f.sectorsPerCluster) {k : ℕ} (hk : k < length) :
    ((f.clusterAt k + word32 - 2) * f.sectorsPerCluster + f.rootdirSector +
      f.rootdirEntries * 32 / f.bytesPerSector) % word32 =
      f.startLba + f.clusterSector (f.clusterAt k) := by
  have hdrive := h.onDrive k hk
  have htwo := (h.clusters k hk).1
  have hsum : (f.clusterAt k + word32 - 2) * f.sectorsPerCluster =
      (f.clusterAt k - 2) * f.sectorsPerCluster + word32 * f.sectorsPerCluster := by
    rw [← Nat.add_mul]
    congr 1
    omega
  have hlt : f.startLba + f.clusterSector (f.clusterAt k) < word32 := by omega
  rw [hsum, ← Nat.mod_eq_of_lt hlt, clusterSector, rootdirSector]
  conv_rhs => rw [← Nat.add_mul_mod_self_left _ word32 f.sectorsPerCluster]
  congr 1
  omega

/-- What a read from the start gives: the first sector of one cluster after the other. -/
theorem read_start (hread : f.driver.Readable) (hsector : f.driver.sectorSize = f.bytesPerSector)
    (hcluster : 0 < f.sectorsPerCluster) (hcount : count < word32) (tail : ℕ → UInt8)
    (c : ℕ → ℕ → UInt8) : (f.holding c).read tail count 0 =
      (((min (min count f.size) (length * f.bytesPerSector) : ℕ) : ℤ),
        slice (fun i => c (f.startLba + f.clusterSector (f.clusterAt (i / f.bytesPerSector)))
          (i % f.bytesPerSector)) 0 (min (min count f.size) (length * f.bytesPerSector))) := by
  rw [read]
  split_ifs with hsize
  · have hzero : f.size = 0 := Nat.le_zero.mp hsize
    rw [hzero, Nat.min_zero, Nat.zero_min]
    rfl
  · have hclip : clip (f.holding c).size count 0 = min count f.size :=
      clip_eq (Nat.lt_of_not_le hsize) (by rwa [Nat.zero_add])
    have hskip : (f.holding c).skipClusters (0 / (f.holding c).bytesPerSector) (f.holding c).cluster =
        f.cluster := by
      rw [Nat.zero_div]
      rfl
    have hmod : 0 % (f.holding c).bytesPerSector = 0 := Nat.zero_mod _
    dsimp only
    rw [hclip, hskip, hmod, clusterChain_holding,
      clusterChain_eq (fun k hk => (h.clusters k hk).2) h.ends, List.map_map]
    -- the buffers that the loop copies from
    have hblocks : (List.range (min (min count f.size) length)).map
          ((f.holding c).readCluster tail ∘ fun k => f.nextCluster^[k] f.cluster) =
        (List.range (min (min count f.size) length)).map fun k =>
          some (f.driver.buffer tail f.bytesPerSector
            [c (f.startLba + f.clusterSector (f.clusterAt k))]) := by
      refine List.map_congr_left fun k hk => ?_
      have hk' : k < length := lt_of_lt_of_le (List.mem_range.mp hk) (Nat.min_le_right _ _)
      exact readCluster_holding hread hsector tail c (h.sector_eq hcluster hk')
    have hcopied := copyBlocks_sectors hsector
      (fun k => c (f.startLba + f.clusterSector (f.clusterAt k))) tail (min count f.size) length
    rw [hblocks]
    refine (congrArg copyResult hcopied).trans ?_
    rw [result_of_ok rfl ?_, slice_length]
    rw [slice_length]
    have hlen := Nat.mul_le_mul h.length_le f.bytes_le
    omega

end ValidChain

/-- Byte `pos` of a file whose logical sectors are those of the drive. -/
theorem byteAt_holding (hsector : f.driver.sectorSize = f.bytesPerSector) (c : ℕ → ℕ → UInt8)
    (pos : ℕ) : (f.holding c).byteAt pos =
      c (f.startLba + (f.clusterSector (f.clusterAt (pos / (f.sectorsPerCluster * f.bytesPerSector))) +
        pos % (f.sectorsPerCluster * f.bytesPerSector) / f.bytesPerSector)) (pos % f.bytesPerSector) := by
  have hbyte : (f.holding c).byteAt pos =
      c (f.startLba + (f.clusterSector (f.clusterAt (pos / (f.sectorsPerCluster * f.bytesPerSector))) *
          f.bytesPerSector + pos % (f.sectorsPerCluster * f.bytesPerSector)) / f.driver.sectorSize)
        ((f.clusterSector (f.clusterAt (pos / (f.sectorsPerCluster * f.bytesPerSector))) *
          f.bytesPerSector + pos % (f.sectorsPerCluster * f.bytesPerSector)) % f.driver.sectorSize) := rfl
  rw [hbyte, hsector, Nat.mul_comm (f.clusterSector _), Nat.mul_add_div f.bytes_pos, Nat.mul_add_mod,
    Nat.mod_mul_left_mod]

/-- A volume on which the second sector of the first cluster is marked. -/
def marked (f : FatFile) (x : UInt8) : ℕ → ℕ → UInt8 := fun a j =>
  if a = f.startLba + (f.clusterSector (f.clusterAt 0) + 1) then x else f.driver.sector a j

theorem marked_sameTables (x : UInt8) : f.SameTables (f.marked x) := by
  intro a ha
  funext j
  rw [marked, if_neg]
  simp only [clusterSector] at ha ⊢
  omega

/-- No cluster begins at the second sector of another one. -/
theorem clusterSector_ne (hcluster : 1 < f.sectorsPerCluster) (a b : ℕ) :
    f.clusterSector b ≠ f.clusterSector a + 1 := by
  intro heq
  have hmul : (b - 2) * f.sectorsPerCluster = (a - 2) * f.sectorsPerCluster + 1 := by
    simp only [clusterSector] at heq
    omega
  have hmod := congrArg (· % f.sectorsPerCluster) hmul
  simp [Nat.mod_eq_of_lt hcluster] at hmod

namespace ValidChain
variable (h : f.ValidChain length)
include h

/-- Behind the first sector of a longer cluster, a read goes on in the next cluster. -/
theorem not_readsStart (hread : f.driver.Readable)
    (hsector : f.driver.sectorSize = f.bytesPerSector) (hcluster : 1 < f.sectorsPerCluster)
    (hcount : count < word32) (hlong : f.bytesPerSector < min count f.size) :
    ¬ f.ReadsStart count := by
  intro hreads
  have hpos := f.bytes_pos
  have hnext := f.clusterSector_ne hcluster (f.clusterAt 0) (f.clusterAt 1)
  -- the byte that the next cluster begins with, and another one in the place of the right one
  generalize hx : f.driver.sector (f.startLba + f.clusterSector (f.clusterAt 1)) 0 = x
  have hresult := hreads (fun _ => 0) (f.marked (x + 1)) (marked_sameTables _)
  rw [h.read_start hread hsector (Nat.zero_lt_of_lt hcluster) hcount] at hresult
  obtain ⟨hlen, hbytes⟩ := Prod.mk.inj hresult
  have hmin : min (min count f.size) (length * f.bytesPerSector) = min count f.size :=
    Int.ofNat.inj hlen
  rw [hmin] at hbytes
  have hbyte := congrArg (·[f.bytesPerSector]?) hbytes
  simp only [slice_getElem? _ hlong, Nat.zero_add, byteAt_holding hsector, Nat.div_self hpos,
    Nat.mod_self, Option.some.injEq] at hbyte
  have hsize : f.bytesPerSector < f.sectorsPerCluster * f.bytesPerSector :=
    (Nat.lt_mul_iff_one_lt_left hpos).mpr hcluster
  rw [Nat.div_eq_of_lt hsize, Nat.mod_eq_of_lt hsize, Nat.div_self hpos, marked, if_neg (by omega),
    marked, if_pos rfl, hx] at hbyte
  simp at hbyte

/-- Where a position of the file lies, if no more of a cluster than its first sector is read. -/
theorem readsStart (hread : f.driver.Readable)
    (hsector : f.driver.sectorSize = f.bytesPerSector) (hcluster : 0 < f.sectorsPerCluster)
    (hcount : count < word32)
    (hfit : f.sectorsPerCluster = 1 ∨ min count f.size ≤ f.bytesPerSector) :
    f.ReadsStart count := by
  have hpos := f.bytes_pos
  have hsize := h.size_le
  have hmin : min (min count f.size) (length * f.bytesPerSector) = min count f.size := by
    rcases hfit with hone | hshort
    · rw [hone, Nat.one_mul] at hsize
      omega
    · cases length with
      | zero => omega
      | succ length =>
        rw [Nat.succ_mul]
        omega
  have hplace : ∀ i < min count f.size, i / (f.sectorsPerCluster * f.bytesPerSector) =
      i / f.bytesPerSector ∧ i % (f.sectorsPerCluster * f.bytesPerSector) / f.bytesPerSector = 0 := by
    intro i hi
    rcases hfit with hone | hshort
    · rw [hone, Nat.one_mul, Nat.div_eq_of_lt (Nat.mod_lt i hpos)]
      exact ⟨rfl, rfl⟩
    · have hlt : i < f.bytesPerSector := hi.trans_le hshort
      have hlt' := hlt.trans_le (Nat.le_mul_of_pos_left f.bytesPerSector hcluster)
      rw [Nat.mod_eq_of_lt hlt', Nat.div_eq_of_lt hlt', Nat.div_eq_of_lt hlt]
      exact ⟨rfl, rfl⟩
  intro tail c _
  rw [h.read_start hread hsector hcluster hcount, hmin]
  congr 1
  refine slice_congr fun i hi => ?_
  obtain ⟨hdiv, hmod⟩ := hplace i hi
  rw [Nat.zero_add, byteAt_holding hsector, hdiv, hmod, Nat.add_zero]

end ValidChain

/-- A read from the start gives the bytes of the clusters exactly if a cluster has one sector, or
no more than a sector is read: of each cluster only the first sector is. -/
theorem read_start_iff (hread : f.driver.Readable)
    (hsector : f.driver.sectorSize = f.bytesPerSector) (h : f.ValidChain length)
    (hcount : count < word32) :
    f.ReadsStart count ↔ f.sectorsPerCluster = 1 ∨ min count f.size ≤ f.bytesPerSector := by
  rcases Nat.eq_zero_or_pos f.sectorsPerCluster with hzero | hcluster
  · -- a file without sectors has no bytes
    have hsize : f.size = 0 := by
      have := h.size_le
      rwa [hzero, Nat.zero_mul, Nat.mul_zero, Nat.le_zero] at this
    refine iff_of_true (fun tail c _ => ?_) (.inr ?_)
    · rw [read, if_pos (show (f.holding c).size ≤ 0 from hsize.le), hsize, Nat.min_zero]
      rfl
    · rw [hsize, Nat.min_zero]
      exact Nat.zero_le _
  constructor
  · intro hreads
    by_contra hnot
    obtain ⟨hne, hlong⟩ := not_or.mp hnot
    exact h.not_readsStart hread hsector (by omega) hcount (Nat.lt_of_not_le hlong) hreads
  · exact h.readsStart hread hsector hcluster hcount

theorem fatExample_chain : fatExample.ValidChain 2 where
  clusters := by decide
  ends := by decide
  onDrive := by decide
  size_le := by decide

theorem read_start_of_one_sector : fatExample.ReadsStart 4000 :=
  (read_start_iff (fun _ _ => rfl) rfl fatExample_chain (by decide)).mpr (.inl rfl)

/-- The same file on a volume with two sectors to a cluster. -/
def twoSectorExample : FatFile := { fatExample with sectorsPerCluster := 2 }

/-- The file of 700 bytes goes on in the second sector of its first cluster, and is read from the
first sector of the second one. -/
theorem read_start_wrong : ¬ ∀ (f : FatFile) (length count : ℕ), f.driver.Readable →
    f.driver.sectorSize = f.bytesPerSector → f.ValidChain length → count < word32 →
      f.ReadsStart count := by
  intro h
  have hchain : twoSectorExample.ValidChain 2 :=
    ⟨by decide, by decide, by decide, by decide⟩
  exact hchain.not_readsStart (fun _ _ => rfl) rfl (by decide) (by decide) (by decide)
    (h twoSectorExample 2 700 (fun _ _ => rfl) rfl hchain (by decide))

end FatFile

end DosKernel
