import DosKernel.Lib.Memory
import DosKernel.Lib.Runs

/-! The disk in memory below `/dev`, `/proc` and `/tmp`. It is a store of sectors; the byte offset
of a sector is a 32-bit product, so that sectors with the same number modulo 2^20 are one. -/

namespace DosKernel.Ramdisk

open Lib

def eio : ℤ := 5

/-- The fields of `iodriver` that the two functions read. -/
structure Iodriver where
  sectorSize : ℕ
  size : ℕ
  partitions : ℕ

/-- `ramdisk_init`; the sectors are at `partitions`. -/
def ramdiskInit (size partitions : ℕ) : Iodriver where
  sectorSize := 4096
  size := size
  partitions := partitions

/-- `lba * driver->sector_size`. -/
def Iodriver.offset (driver : Iodriver) (lba : BitVec 32) : ℕ :=
  lba.toNat * driver.sectorSize % space

def ramdiskReadSector (driver : Iodriver) (lba : BitVec 32) (data : ℕ) (m : Memory) : ℤ × Memory :=
  if driver.size ≤ driver.offset lba then (-eio, m)
  else (0, m.copy data (driver.partitions + driver.offset lba) driver.sectorSize)

def ramdiskWriteSector (driver : Iodriver) (lba : BitVec 32) (data : ℕ) (m : Memory) : ℤ × Memory :=
  if driver.size ≤ driver.offset lba then (-eio, m)
  else (0, m.copy (driver.partitions + driver.offset lba) data driver.sectorSize)

/-- A sector is read or written, or somebody else stores a byte. -/
inductive DiskEvent
  | read (lba : BitVec 32) (data : ℕ)
  | write (lba : BitVec 32) (data : ℕ)
  | store (a : ℕ) (v : UInt8)
  deriving DecidableEq

def diskStep (driver : Iodriver) (m : Memory) : DiskEvent → Option Memory
  | .read lba data => some (ramdiskReadSector driver lba data m).2
  | .write lba data => some (ramdiskWriteSector driver lba data m).2
  | .store a v => some (Function.update m a v)

/-- The buffer of a sector lies in the memory, apart from the disk. -/
def Iodriver.Buffer (driver : Iodriver) (data : ℕ) : Prop :=
  data + 4096 ≤ space ∧
    (data + 4096 ≤ driver.partitions ∨ driver.partitions + driver.size ≤ data)

instance (driver : Iodriver) (data : ℕ) : Decidable (driver.Buffer data) :=
  inferInstanceAs (Decidable (_ ∧ _))

/-- Nobody else stores into the disk. -/
def DiskAllowed (driver : Iodriver) (_ : Memory) : DiskEvent → Prop
  | .read _ data => driver.Buffer data
  | .write _ data => driver.Buffer data
  | .store a _ => a < driver.partitions ∨ driver.partitions + driver.size ≤ a

instance (driver : Iodriver) (m : Memory) (e : DiskEvent) : Decidable (DiskAllowed driver m e) := by
  cases e <;> unfold DiskAllowed <;> infer_instance

/-! ### A store of sectors -/

def sectorOf (lba : BitVec 32) : ℕ := lba.toNat % 1048576

def writes (driver : Iodriver) (m : Memory) : DiskEvent → List (ℕ × (ℕ → UInt8))
  | .write lba data =>
    if sectorOf lba < driver.size / 4096 then [(sectorOf lba, fun k => m (data + k))] else []
  | _ => []

def lastWritten (log : List (ℕ × (ℕ → UInt8))) (n : ℕ) : Option (ℕ → UInt8) :=
  log.reverse.lookup n

theorem lastWritten_concat (log : List (ℕ × (ℕ → UInt8))) (n n' : ℕ) (f : ℕ → UInt8) :
    lastWritten (log ++ [(n', f)]) n = if n = n' then some f else lastWritten log n := by
  unfold lastWritten
  rw [List.reverse_append, List.reverse_singleton, List.singleton_append, List.lookup_cons]
  split_ifs with h
  · subst h
    simp only [BEq.rfl]
  · simp only [beq_eq_false_iff_ne.mpr h]

/-! ### Sectors in the memory -/

section Sectors
variable {size partitions data : ℕ} {lba : BitVec 32} {m m₀ : Memory}

/-- The disk of a size that is a number of sectors. -/
structure Placed (size partitions : ℕ) : Prop where
  whole : size % 4096 = 0
  top : partitions + size ≤ space

theorem offset_eq (size partitions : ℕ) (lba : BitVec 32) :
    (ramdiskInit size partitions).offset lba = 4096 * sectorOf lba := by
  simp only [Iodriver.offset, ramdiskInit, sectorOf, space]
  omega

/-- The calls succeed on the sectors of the disk, whatever number modulo 2^20 they come under. -/
theorem inside_iff (h : Placed size partitions) :
    ¬ (ramdiskInit size partitions).size ≤ (ramdiskInit size partitions).offset lba ↔
      sectorOf lba < size / 4096 := by
  have hwhole := h.whole
  have hsize : (ramdiskInit size partitions).size = size := rfl
  rw [offset_eq, hsize]
  omega

theorem read_byte (h : Placed size partitions) (hbuffer : (ramdiskInit size partitions).Buffer data)
    (hlba : sectorOf lba < size / 4096) {k : ℕ} (hk : k < 4096) :
    (ramdiskReadSector (ramdiskInit size partitions) lba data m).2 (data + k) =
      m (partitions + 4096 * sectorOf lba + k) := by
  have htop := h.top
  have hwhole := h.whole
  unfold ramdiskReadSector
  rw [if_neg ((inside_iff h).mpr hlba), offset_eq]
  dsimp only [ramdiskInit]
  rw [Memory.copy, Memory.write_of_mem hbuffer.1 (by omega) (by omega), Nat.add_sub_cancel_left,
    Nat.mod_eq_of_lt (by omega)]

/-- A read does not touch the disk. -/
theorem read_frame (hbuffer : (ramdiskInit size partitions).Buffer data) {x : ℕ}
    (hx : partitions ≤ x ∧ x < partitions + size) :
    (ramdiskReadSector (ramdiskInit size partitions) lba data m).2 x = m x := by
  obtain ⟨htop, hapart⟩ := hbuffer
  dsimp only [ramdiskInit] at hapart
  unfold ramdiskReadSector
  split_ifs
  · rfl
  · dsimp only [ramdiskInit]
    rw [Memory.copy, Memory.write_of_not_mem htop (by omega)]

/-- A write stores the bytes of the buffer in the sector. -/
theorem write_byte (h : Placed size partitions) (hbuffer : (ramdiskInit size partitions).Buffer data)
    (hlba : sectorOf lba < size / 4096) {n k : ℕ} (hn : n < size / 4096) (hk : k < 4096) :
    (ramdiskWriteSector (ramdiskInit size partitions) lba data m).2 (partitions + 4096 * n + k) =
      if n = sectorOf lba then m (data + k) else m (partitions + 4096 * n + k) := by
  have htop := h.top
  have hwhole := h.whole
  have hdata := hbuffer.1
  unfold ramdiskWriteSector
  rw [if_neg ((inside_iff h).mpr hlba), offset_eq]
  dsimp only [ramdiskInit]
  split_ifs with heq
  · subst heq
    rw [Memory.copy, Memory.write_of_mem (by omega) (by omega) (by omega), Nat.add_sub_cancel_left,
      Nat.mod_eq_of_lt (by omega)]
  · rw [Memory.copy, Memory.write_of_not_mem (by omega) (by omega)]

/-- The sectors are what was written last, or what was there in the beginning. -/
def Holds (size partitions : ℕ) (m₀ m : Memory) (log : List (ℕ × (ℕ → UInt8))) : Prop :=
  ∀ n < size / 4096, ∀ k < 4096, m (partitions + 4096 * n + k) =
    (lastWritten log n).elim (m₀ (partitions + 4096 * n + k)) fun f => f k

theorem Holds.step (h : Placed size partitions) {m' : Memory} {log : List (ℕ × (ℕ → UInt8))}
    (hm : Holds size partitions m₀ m log) {e : DiskEvent}
    (hc : DiskAllowed (ramdiskInit size partitions) m e)
    (hs : diskStep (ramdiskInit size partitions) m e = some m') :
    Holds size partitions m₀ m' (log ++ writes (ramdiskInit size partitions) m e) := by
  have hwhole := h.whole
  intro n hn k hk
  have hold := hm n hn k hk
  cases e with
  | read lba data =>
    obtain rfl := Option.some.inj hs
    rw [read_frame hc (by omega)]
    simpa only [writes, List.append_nil] using hold
  | write lba data =>
    obtain rfl := Option.some.inj hs
    have hsize : (ramdiskInit size partitions).size = size := rfl
    simp only [writes, hsize]
    split_ifs with hlba
    · rw [write_byte h hc hlba hn hk, lastWritten_concat]
      split_ifs
      · rfl
      · exact hold
    · have hfail : ramdiskWriteSector (ramdiskInit size partitions) lba data m = (-eio, m) :=
        if_pos (not_lt.mp fun hlt => hlba ((inside_iff h).mp (not_le.mpr hlt)))
      rw [hfail, List.append_nil]
      exact hold
  | store a v =>
    obtain rfl := Option.some.inj hs
    have ha : a < partitions ∨ partitions + size ≤ a := hc
    rw [Function.update_of_ne (by omega)]
    simpa only [writes, List.append_nil] using hold

end Sectors

/-- In every run of reads and writes of sectors and of stores beside the disk, a sector can be read
exactly if its number modulo 2^20 is that of a sector of the disk, and then the bytes are those of
the last write to it, under whatever number, or those that were there in the beginning. -/
theorem sectors_kept {size partitions : ℕ} (h : Placed size partitions) {m₀ m : Memory}
    {es : List DiskEvent} {log : List (ℕ × (ℕ → UInt8))}
    (hrun : Run (logged (diskStep (ramdiskInit size partitions)) (writes (ramdiskInit size partitions)))
      (fun s e => DiskAllowed (ramdiskInit size partitions) s.1 e) (m₀, []) es (m, log))
    (lba : BitVec 32) {data : ℕ} (hbuffer : (ramdiskInit size partitions).Buffer data) :
    (ramdiskReadSector (ramdiskInit size partitions) lba data m).1 =
      (if sectorOf lba < size / 4096 then 0 else -eio) ∧
    (sectorOf lba < size / 4096 → ∀ k < 4096,
      (ramdiskReadSector (ramdiskInit size partitions) lba data m).2 (data + k) =
        (lastWritten log (sectorOf lba)).elim (m₀ (partitions + 4096 * sectorOf lba + k))
          fun f => f k) := by
  have hholds : Holds size partitions m₀ m log := by
    refine hrun.invariant (I := fun s : Memory × List (ℕ × (ℕ → UInt8)) =>
      Holds size partitions m₀ s.1 s.2) (fun s e s' hI hc hs => ?_) fun n _ k _ => rfl
    obtain ⟨m', hstep, rfl⟩ := Option.map_eq_some_iff.mp hs
    exact hI.step h hc hstep
  refine ⟨?_, fun hlba k hk => ?_⟩
  · have hiff : ¬ (ramdiskInit size partitions).size ≤ (ramdiskInit size partitions).offset lba ↔
        sectorOf lba < size / 4096 := inside_iff h
    unfold ramdiskReadSector
    split_ifs with h1 h2 h2
    · exact absurd h1 (hiff.mpr h2)
    · rfl
    · rfl
    · exact absurd (hiff.mp h1) h2
  · rw [read_byte h hbuffer hlba hk]
    exact hholds _ hlba k hk

theorem sectors_kept_two : ∃ m log, Run (logged (diskStep (ramdiskInit 8192 8192))
      (writes (ramdiskInit 8192 8192))) (fun s e => DiskAllowed (ramdiskInit 8192 8192) s.1 e)
      (fun _ => 0, []) [.store 0 7, .write 1048577#32 0] (m, log) ∧
    (ramdiskReadSector (ramdiskInit 8192 8192) 1#32 4096 m).1 =
      (if sectorOf 1#32 < 8192 / 4096 then 0 else -eio) ∧
    (ramdiskReadSector (ramdiskInit 8192 8192) 1#32 4096 m).2 (4096 + 0) =
      (lastWritten log (sectorOf 1#32)).elim 0 (fun f => f 0) ∧
    (lastWritten log (sectorOf 1#32)).elim 0 (fun f => f 0) = 7 := by
  have hruns : ∃ m log, Run (logged (diskStep (ramdiskInit 8192 8192))
      (writes (ramdiskInit 8192 8192))) (fun s e => DiskAllowed (ramdiskInit 8192 8192) s.1 e)
      (fun _ => 0, []) [.store 0 7, .write 1048577#32 0] (m, log) ∧
      (lastWritten log (sectorOf 1#32)).elim 0 (fun f => f 0) = 7 :=
    ⟨_, _, .cons (by decide) rfl (.cons (by decide) rfl (.nil _)), by decide⟩
  obtain ⟨m, log, hrun, hseven⟩ := hruns
  have hbuffer : (ramdiskInit 8192 8192).Buffer 4096 := by decide
  obtain ⟨hret, hbytes⟩ := sectors_kept ⟨by decide, by decide⟩ hrun 1#32 hbuffer
  exact ⟨m, log, hrun, hret, hbytes (by decide) 0 (by decide), hseven⟩

end DosKernel.Ramdisk
