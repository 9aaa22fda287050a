import DosKernel.Fs.Retries
import DosKernel.Lib.Loop

/-! The allocation table that `fat_init` caches. It reads the copies of the table one after the
other until one of them can be read; the address of a copy counts the bytes of the copies before
it as if they were sectors. -/

namespace DosKernel

open Lib

/-- `bios_params`, as far as the file system uses it. -/
structure BiosParams where
  bytesPerSector : ℕ
  sectorsPerCluster : ℕ
  reservedSectors : ℕ
  numberOfFat : ℕ
  rootdirEntries : ℕ
  sectorsPerFat : ℕ
  deriving DecidableEq

/-- The 16-bit number at an offset. -/
def halfword (b : ℕ → UInt8) (o : ℕ) : ℕ := (b o).toNat + 256 * (b (o + 1)).toNat

def biosParams (b : ℕ → UInt8) : BiosParams where
  bytesPerSector := halfword b 11
  sectorsPerCluster := (b 13).toNat
  reservedSectors := halfword b 14
  numberOfFat := (b 16).toNat
  rootdirEntries := halfword b 17
  sectorsPerFat := halfword b 22

/-- What `fat_init` stores. -/
structure FatCache where
  params : BiosParams
  bitmap : ℕ → UInt8

namespace IoDriver
variable (d : IoDriver) (startLba : ℕ) (p : BiosParams) (tail ioBuffer : ℕ → UInt8)

/-- `io_buffer` after the boot sector was read, or was not. -/
def bootBuffer : ℕ → UInt8 :=
  match d.readSector (startLba % word32) 0 with
  | some s => d.buffer tail d.sectorSize [s]
  | none => ioBuffer

/-- Sector `i` of a copy of the table is cached. -/
def cacheSector (fat i : ℕ) (table : ℕ → UInt8) : Bool × (ℕ → UInt8) :=
  match d.readSector ((startLba + p.reservedSectors + fat * p.sectorsPerFat * p.bytesPerSector + i) %
    word32) 0 with
  | none => (false, table)
  | some s => (true, fun j =>
      if i * p.bytesPerSector ≤ j ∧ j < i * p.bytesPerSector + p.bytesPerSector then
        d.buffer tail d.sectorSize [s] (j - i * p.bytesPerSector)
      else table j)

/-- The copies from `fat` on, until one of them was read. -/
def cacheFats : (n fat : ℕ) → (ℕ → UInt8) → ℕ → UInt8
  | 0, _, table => table
  | n + 1, fat, table =>
    match tryRange (d.cacheSector startLba p tail fat) p.sectorsPerFat 0 table with
    | (true, table') => table'
    | (false, table') => cacheFats n (fat + 1) table'

/-- `fat_init`; `none` for a panic. -/
def fatInit : Option FatCache :=
  let p := biosParams (d.bootBuffer startLba tail ioBuffer)
  if p.bytesPerSector < d.sectorSize ∨ p.bytesPerSector % d.sectorSize ≠ 0 then none
  else some ⟨p, d.cacheFats startLba p tail p.numberOfFat 0 fun _ => 0⟩

/-! ### Volumes with copies of the table -/

/-- A volume in the sectors of the drive, which have 512 bytes or a multiple of that, with the boot
sector before the copies of the table. -/
structure FatVolume : Prop where
  params_eq : biosParams (d.bootBuffer startLba tail ioBuffer) = p
  sector_eq : d.sectorSize = p.bytesPerSector
  bytes_dvd : 512 ∣ p.bytesPerSector
  reserved_pos : 0 < p.reservedSectors
  onDrive : startLba + p.reservedSectors + p.numberOfFat * p.sectorsPerFat ≤ word32

def copySector (m i : ℕ) : ℕ := startLba + p.reservedSectors + m * p.sectorsPerFat + i

/-- Every copy is the table `table`. -/
def HoldsFat (table : ℕ → UInt8) : Prop :=
  ∀ m < p.numberOfFat, ∀ i < p.sectorsPerFat, ∀ j < p.bytesPerSector,
    d.sector (copySector startLba p m i) j = table (i * p.bytesPerSector + j)

def CopyReadable (m : ℕ) : Prop :=
  ∀ i < p.sectorsPerFat, d.fails (copySector startLba p m i) 0 = false

instance (m : ℕ) : Decidable (d.CopyReadable startLba p m) :=
  inferInstanceAs (Decidable (∀ i < _, _ = _))

/-- Whatever the drive holds besides the boot sector: if one copy can be read, it is cached. -/
def BackupWorks : Prop :=
  (∃ m < p.numberOfFat, d.CopyReadable startLba p m) →
    ∀ c table, c startLba = d.sector startLba → (d.holding c).HoldsFat startLba p table →
      ∃ v, (d.holding c).fatInit startLba tail ioBuffer = some v ∧
        ∀ j < p.sectorsPerFat * p.bytesPerSector, v.bitmap j = table j

variable {d startLba p tail ioBuffer} {c : ℕ → ℕ → UInt8} {table t : ℕ → UInt8} {m fat i j n : ℕ}

theorem buffer_single (s : ℕ → UInt8) (hj : j < d.sectorSize) :
    d.buffer tail d.sectorSize [s] j = s j := by
  rw [buffer, if_pos hj, Nat.div_eq_of_lt hj, Nat.mod_eq_of_lt hj]
  rfl

/-- What every sector of a copy leaves as it is, all copies do. -/
theorem cacheFats_preserves {I : (ℕ → UInt8) → Prop}
    (h : ∀ fat k t, k < p.sectorsPerFat → I t → I (d.cacheSector startLba p tail fat k t).2)
    (ht : I t) : I (d.cacheFats startLba p tail n fat t) := by
  induction n generalizing fat t with
  | zero => exact ht
  | succ n ih =>
    have hcopy : I (tryRange (d.cacheSector startLba p tail fat) p.sectorsPerFat 0 t).2 :=
      tryRange_preserves (fun k t hk => h fat k t (by omega)) ht
    rw [cacheFats]
    rcases hres : tryRange (d.cacheSector startLba p tail fat) p.sectorsPerFat 0 t with ⟨_ | _, t'⟩
    · rw [hres] at hcopy
      exact ih hcopy
    · rw [hres] at hcopy
      exact hcopy

namespace FatVolume
variable (h : d.FatVolume startLba p tail ioBuffer)
include h

theorem numberOfFat_lt : p.numberOfFat < 256 := by
  rw [← h.params_eq]
  exact UInt8.toNat_lt _

theorem sectorsPerFat_lt : p.sectorsPerFat < 65536 := by
  rw [← h.params_eq]
  have h0 := (d.bootBuffer startLba tail ioBuffer 22).toNat_lt
  have h1 := (d.bootBuffer startLba tail ioBuffer (22 + 1)).toNat_lt
  simp only [biosParams, halfword]
  omega

theorem bytes_pos : 0 < p.bytesPerSector := by
  rw [← h.sector_eq]
  exact d.sectorSize_pos

theorem copySector_lt (hm : m < p.numberOfFat) (hi : i < p.sectorsPerFat) :
    copySector startLba p m i < word32 := by
  have hle := Nat.mul_le_mul_right p.sectorsPerFat (show m + 1 ≤ p.numberOfFat from hm)
  have hdrive := h.onDrive
  rw [Nat.succ_mul] at hle
  rw [copySector]
  omega

/-- The parameters of the boot sector are found, and accepted. -/
theorem fatInit_eq (hboot : c startLba = d.sector startLba) :
    (d.holding c).fatInit startLba tail ioBuffer =
      some ⟨p, (d.holding c).cacheFats startLba p tail p.numberOfFat 0 fun _ => 0⟩ := by
  have hlt : startLba < word32 := by
    have hdrive := h.onDrive
    have hpos := h.reserved_pos
    omega
  have hbuffer : (d.holding c).bootBuffer startLba tail ioBuffer =
      d.bootBuffer startLba tail ioBuffer := by
    simp only [bootBuffer, readSector, Nat.mod_eq_of_lt hlt]
    show (match if d.fails startLba 0 = true then none else some (c startLba) with
      | some s => d.buffer tail d.sectorSize [s]
      | none => ioBuffer) = _
    rw [hboot]
  have hsize : (d.holding c).sectorSize = p.bytesPerSector := h.sector_eq
  rw [fatInit, hbuffer, h.params_eq, hsize]
  simp

/-- A sector of the first copy, after those before it. -/
theorem cacheSector_first {k : ℕ} (hfat : 0 < p.numberOfFat) (hread : d.CopyReadable startLba p 0)
    (hholds : (d.holding c).HoldsFat startLba p table) (hk : k < p.sectorsPerFat)
    (ht : ∀ j < k * p.bytesPerSector, t j = table j) :
    ((d.holding c).cacheSector startLba p tail 0 k t).1 = true ∧
      ∀ j < (k + 1) * p.bytesPerSector,
        ((d.holding c).cacheSector startLba p tail 0 k t).2 j = table j := by
  have haddress : (startLba + p.reservedSectors + 0 * p.sectorsPerFat * p.bytesPerSector + k) %
      word32 = copySector startLba p 0 k := by
    have hlt := h.copySector_lt hfat hk
    rw [copySector] at hlt ⊢
    rw [Nat.zero_mul, Nat.zero_mul] at *
    exact Nat.mod_eq_of_lt hlt
  have hsector : (d.holding c).readSector (copySector startLba p 0 k) 0 =
      some (c (copySector startLba p 0 k)) := by
    rw [readSector, if_neg]
    · rfl
    · exact Bool.eq_false_iff.mp (hread k hk)
  rw [cacheSector, haddress, hsector]
  refine ⟨rfl, fun j hj => ?_⟩
  rw [Nat.succ_mul] at hj
  dsimp only
  split_ifs with hin
  · have hlt : j - k * p.bytesPerSector < p.bytesPerSector := by omega
    have hbuffer : (d.holding c).buffer tail (d.holding c).sectorSize
        [c (copySector startLba p 0 k)] (j - k * p.bytesPerSector) =
        c (copySector startLba p 0 k) (j - k * p.bytesPerSector) :=
      buffer_single _ (by rw [show (d.holding c).sectorSize = p.bytesPerSector from h.sector_eq]; exact hlt)
    have hcopy := hholds 0 hfat k hk (j - k * p.bytesPerSector) hlt
    rw [Nat.add_sub_cancel' hin.1] at hcopy
    exact hbuffer.trans hcopy
  · exact ht j (by omega)

/-- The first copy is cached where it can be read. -/
theorem cacheFats_first (hfat : 0 < p.numberOfFat) (hread : d.CopyReadable startLba p 0)
    (hholds : (d.holding c).HoldsFat startLba p table) (hj : j < p.sectorsPerFat * p.bytesPerSector) :
    (d.holding c).cacheFats startLba p tail p.numberOfFat 0 t j = table j := by
  -- after `k` sectors, the table is there as far as they reach
  have hstep : ∀ (k : ℕ) (t : ℕ → UInt8), 0 ≤ k → k < 0 + p.sectorsPerFat →
      (∀ j < k * p.bytesPerSector, t j = table j) →
      ((d.holding c).cacheSector startLba p tail 0 k t).1 = true ∧
        ∀ j < (k + 1) * p.bytesPerSector,
          ((d.holding c).cacheSector startLba p tail 0 k t).2 j = table j := by
    intro k t _ hk ht
    rw [Nat.zero_add] at hk
    exact h.cacheSector_first hfat hread hholds hk ht
  obtain ⟨hdone, hall⟩ := tryRange_total hstep (s := t) (fun j hj => by simp at hj)
  obtain ⟨n, hn⟩ : ∃ n, p.numberOfFat = n + 1 := ⟨_, (Nat.sub_add_cancel hfat).symm⟩
  rw [hn, cacheFats]
  rcases hres : tryRange ((d.holding c).cacheSector startLba p tail 0) p.sectorsPerFat 0 t with
    ⟨_ | _, t'⟩
  · rw [hres] at hdone
    cases hdone
  · rw [hres] at hall
    exact hall j (by rwa [Nat.zero_add])

omit h in
/-- A power of two that divides a product is mostly in the factor that is not small. -/
theorem dvd_of_dvd_mul {s x : ℕ} (hs : 0 < s) (hlt : s < 65536) (hdvd : word32 ∣ s * x) : 512 ∣ x := by
  obtain ⟨k, r, hodd, rfl⟩ := Nat.exists_eq_two_pow_mul_odd hs.ne'
  have hk : k < 16 := by
    by_contra hge
    have hpow := Nat.pow_le_pow_right (show 0 < 2 by decide) (Nat.le_of_not_lt hge)
    have hle := Nat.le_mul_of_pos_right (2 ^ k) hodd.pos
    omega
  have hword : word32 = 2 ^ k * 2 ^ (32 - k) := by
    rw [← pow_add, Nat.add_sub_cancel' (by omega)]
    rfl
  rw [hword, Nat.mul_assoc] at hdvd
  have hrest := Nat.dvd_of_mul_dvd_mul_left (Nat.two_pow_pos k) hdvd
  have hcoprime : Nat.Coprime (2 ^ (32 - k)) r := (Nat.coprime_two_left.mpr hodd).pow_left _
  exact (pow_dvd_pow 2 (show 9 ≤ 32 - k by omega)).trans (hcoprime.dvd_of_dvd_mul_left hrest)

/-- The address that is computed for sector `i` of a copy is sector `i` of the first copy, or of no
copy. -/
theorem copySector_eq (hm : m < p.numberOfFat) (hi : i < p.sectorsPerFat)
    (heq : (startLba + p.reservedSectors + fat * p.sectorsPerFat * p.bytesPerSector + i) % word32 =
      copySector startLba p m i) : m = 0 := by
  have hspf := h.sectorsPerFat_lt
  have hnfat := h.numberOfFat_lt
  have hmod : fat * p.sectorsPerFat * p.bytesPerSector ≡ m * p.sectorsPerFat [MOD word32] := by
    have hsum : startLba + p.reservedSectors + fat * p.sectorsPerFat * p.bytesPerSector + i ≡
        startLba + p.reservedSectors + m * p.sectorsPerFat + i [MOD word32] :=
      heq.trans (Nat.mod_eq_of_lt (h.copySector_lt hm hi)).symm
    exact Nat.ModEq.add_left_cancel' _ (Nat.ModEq.add_right_cancel' _ hsum)
  obtain ⟨q, hq⟩ := h.bytes_dvd
  have hpos := h.bytes_pos
  rcases Nat.eq_zero_or_pos fat with rfl | hfat
  · rw [Nat.zero_mul, Nat.zero_mul, Nat.mul_comm m] at hmod
    have hdvd := dvd_of_dvd_mul (by omega) hspf ((Nat.modEq_zero_iff_dvd).mp hmod.symm)
    exact Nat.eq_zero_of_dvd_of_lt hdvd (by omega)
  · have hle : m ≤ fat * p.bytesPerSector :=
      (show m ≤ p.bytesPerSector by omega).trans (Nat.le_mul_of_pos_left _ hfat)
    have hfactor : fat * p.sectorsPerFat * p.bytesPerSector - m * p.sectorsPerFat =
        p.sectorsPerFat * (fat * p.bytesPerSector - m) := by
      rw [Nat.mul_sub, Nat.mul_comm m]
      congr 1
      ring
    have hdvd := (Nat.modEq_iff_dvd' (by
      rw [Nat.mul_right_comm, Nat.mul_comm m, Nat.mul_comm _ p.sectorsPerFat]
      exact Nat.mul_le_mul_left _ hle)).mp hmod.symm
    rw [hfactor] at hdvd
    have hdiff := dvd_of_dvd_mul (by omega) hspf hdvd
    have hm : 512 ∣ m := (Nat.dvd_sub_iff_right hle ((Dvd.intro _ hq.symm).mul_left fat)).mp hdiff
    exact Nat.eq_zero_of_dvd_of_lt hm (by omega)

/-- A drive on which byte 0 of sector `i` of the copies is `u`, and of the other sectors but the
boot sector 0. -/
def marked (d : IoDriver) (startLba : ℕ) (p : BiosParams) (i : ℕ) (u : UInt8) : ℕ → ℕ → UInt8 :=
  fun a => if a = startLba then d.sector startLba
    else fun _ => if ∃ m < p.numberOfFat, a = copySector startLba p m i then u else 0

theorem marked_holdsFat (u : UInt8) (hi : i < p.sectorsPerFat) :
    (d.holding (marked d startLba p i u)).HoldsFat startLba p
      fun j => if j / p.bytesPerSector = i then u else 0 := by
  intro m hm k hk j hj
  have hreserved := h.reserved_pos
  have hne : copySector startLba p m k ≠ startLba := by
    rw [copySector]
    omega
  have hsector : (∃ m' < p.numberOfFat, copySector startLba p m k = copySector startLba p m' i) ↔
      k = i := by
    constructor
    · rintro ⟨m', -, heq⟩
      have hsum : p.sectorsPerFat * m + k = p.sectorsPerFat * m' + i := by
        rw [copySector, copySector, Nat.mul_comm m, Nat.mul_comm m'] at heq
        omega
      have hmod := congrArg (· % p.sectorsPerFat) hsum
      simpa [Nat.mul_add_mod, Nat.mod_eq_of_lt hk, Nat.mod_eq_of_lt hi] using hmod
    · rintro rfl
      exact ⟨m, hm, rfl⟩
  have hdiv : (k * p.bytesPerSector + j) / p.bytesPerSector = k := by
    rw [Nat.mul_comm, Nat.mul_add_div h.bytes_pos, Nat.div_eq_of_lt hj, Nat.add_zero]
  show marked d startLba p i u (copySector startLba p m k) j = _
  simp only [marked, if_neg hne, hsector, hdiv]

/-- If sector `i` of the first copy cannot be read, its byte 0 is not found. -/
theorem marked_not_cached {u : UInt8} (hzero : u ≠ 0) (hboot : u ≠ d.sector startLba 0)
    (hi : i < p.sectorsPerFat) (hfails : d.fails (copySector startLba p 0 i) 0 = true) (n fat : ℕ) :
    (d.holding (marked d startLba p i u)).cacheFats startLba p tail n fat (fun _ => 0)
      (i * p.bytesPerSector) ≠ u := by
  have hpos := h.bytes_pos
  refine cacheFats_preserves (I := fun t => t (i * p.bytesPerSector) ≠ u) (fun fat k t hk ht => ?_)
    hzero.symm
  rw [cacheSector, readSector]
  split_ifs with hread
  · exact ht
  dsimp only
  split_ifs with hin
  · -- the entry is taken from sector `i` of an attempt
    obtain rfl : k = i := by
      refine Nat.le_antisymm ?_ ?_
      · exact Nat.le_of_mul_le_mul_right hin.1 hpos
      · have hlt := hin.2
        rw [← Nat.succ_mul] at hlt
        exact Nat.le_of_lt_succ (Nat.lt_of_mul_lt_mul_right hlt)
    rw [Nat.sub_self]
    rw [buffer_single _ (d.holding _).sectorSize_pos]
    show marked d startLba p k u _ 0 ≠ u
    rw [marked]
    split_ifs with hstart hcopy
    · exact hboot.symm
    · -- only the sector that cannot be read holds the byte
      obtain ⟨m, hm, heq⟩ := hcopy
      obtain rfl := h.copySector_eq hm hi heq
      rw [heq] at hread
      exact absurd hfails hread
    · exact hzero.symm
  · exact ht

/-- With a sector of the first copy that cannot be read, another one is not enough. -/
theorem not_backupWorks (hi : i < p.sectorsPerFat)
    (hfails : d.fails (copySector startLba p 0 i) 0 = true)
    (hother : ∃ m < p.numberOfFat, d.CopyReadable startLba p m) :
    ¬ d.BackupWorks startLba p tail ioBuffer := by
  obtain ⟨u, hzero, hboot⟩ : ∃ u : UInt8, u ≠ 0 ∧ u ≠ d.sector startLba 0 := by
    by_cases hone : d.sector startLba 0 = 1
    · exact ⟨2, by decide, by rw [hone]; decide⟩
    · exact ⟨1, by decide, fun heq => hone heq.symm⟩
  intro hworks
  obtain ⟨v, hinit, hv⟩ := hworks hother (marked d startLba p i u) _ (if_pos rfl)
    (h.marked_holdsFat u hi)
  rw [h.fatInit_eq (if_pos rfl)] at hinit
  obtain rfl := Option.some.inj hinit
  have hbyte := hv (i * p.bytesPerSector) (Nat.mul_lt_mul_of_pos_right hi h.bytes_pos)
  dsimp only at hbyte
  rw [Nat.mul_div_cancel _ h.bytes_pos, if_pos rfl] at hbyte
  exact h.marked_not_cached hzero hboot hi hfails _ _ hbyte

/-- The table is cached from some readable copy, whatever the drive holds besides the boot sector,
exactly if the first copy can be read, or none can. -/
theorem backup_iff : d.BackupWorks startLba p tail ioBuffer ↔
    d.CopyReadable startLba p 0 ∨ ¬ ∃ m < p.numberOfFat, d.CopyReadable startLba p m := by
  by_cases hother : ∃ m < p.numberOfFat, d.CopyReadable startLba p m
  · rw [or_iff_left (not_not.mpr hother)]
    constructor
    · intro hworks i hi
      by_contra hfails
      exact h.not_backupWorks hi (by simpa using hfails) hother hworks
    · intro hread _ c table hboot hholds
      obtain ⟨m, hm, -⟩ := hother
      exact ⟨_, h.fatInit_eq hboot, fun j hj => h.cacheFats_first (by omega) hread hholds hj⟩
  · exact iff_of_true (fun hread => absurd hread hother) (.inr hother)

end FatVolume

end IoDriver

/-- A volume with two copies of a table of one sector, in the sectors 64 and 65. -/
def backupDrive (failing : ℕ) : IoDriver where
  sectorSize := 512
  sector := fun lba j =>
    if lba = 63 then
      if j = 12 then 2 else if j = 14 then 1 else if j = 16 then 2 else if j = 18 then 2
      else if j = 22 then 1 else 0
    else if lba = 64 ∨ lba = 65 then 1 else 0
  fails := fun lba _ => lba = failing
  sectorSize_pos := sector512_pos

namespace IoDriver

theorem backupDrive_volume {failing : ℕ} (h : failing = 64 ∨ failing = 65) :
    (backupDrive failing).FatVolume 63 ⟨512, 0, 1, 2, 512, 1⟩ (fun _ => 0) fun _ => 0 := by
  refine ⟨?_, rfl, by decide, by decide, by decide⟩
  rcases h with rfl | rfl
  · decide +kernel
  · decide +kernel

theorem backup_of_first :
    (backupDrive 65).BackupWorks 63 ⟨512, 0, 1, 2, 512, 1⟩ (fun _ => 0) fun _ => 0 :=
  (backupDrive_volume (.inr rfl)).backup_iff.mpr (.inl (by decide))

/-- The second copy is looked for in sector 576. -/
theorem backup_wrong :
    ¬ ∀ (d : IoDriver) (startLba : ℕ) (p : BiosParams) (tail ioBuffer : ℕ → UInt8),
      d.FatVolume startLba p tail ioBuffer → d.BackupWorks startLba p tail ioBuffer := by
  intro h
  have hholds : (backupDrive 64).HoldsFat 63 ⟨512, 0, 1, 2, 512, 1⟩ fun _ => 1 := by
    intro m hm i hi j hj
    obtain rfl : i = 0 := Nat.lt_one_iff.mp hi
    obtain rfl | rfl : m = 0 ∨ m = 1 := by
      have : m < 2 := hm
      omega
    · rfl
    · rfl
  obtain ⟨v, hinit, hv⟩ := h (backupDrive 64) 63 _ _ _ (backupDrive_volume (.inl rfl))
    ⟨1, by decide, by decide⟩ (backupDrive 64).sector (fun _ => 1) rfl hholds
  have hbyte : ((backupDrive 64).fatInit 63 (fun _ => 0) fun _ => 0).map (fun v => v.bitmap 0) =
      some 0 := by decide +kernel
  have hsame : (backupDrive 64).fatInit 63 (fun _ => 0) (fun _ => 0) = some v := hinit
  rw [hsame, Option.map_some, hv 0 (by decide)] at hbyte
  exact absurd hbyte (by decide)

end IoDriver

end DosKernel
