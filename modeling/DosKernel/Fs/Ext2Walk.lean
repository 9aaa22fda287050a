import DosKernel.Fs.Readers
import DosKernel.Lib.PointerTree

/-! The blocks that `ext2_read` comes to. The loop over the direct pointers, the helper for a
block of pointers and the loops over the higher levels hand the number of bytes read to each
other; all of them copy from one list of blocks, which does not depend on the count. -/

namespace DosKernel

open Lib

/-! ### Sectors of a readable drive -/

namespace IoDriver
variable {d : IoDriver}

theorem Readable.readSector (h : d.Readable) (lba attempt : ℕ) :
    d.readSector lba attempt = some (d.sector lba) := by
  rw [IoDriver.readSector, h]
  rfl

theorem Readable.readSectors (h : d.Readable) (skip passes lba : ℕ) :
    d.readSectors skip passes lba =
      some ((List.range' lba passes).map fun a => d.sector (a % word32)) := by
  induction passes generalizing lba with
  | zero => rfl
  | succ passes ih => simp [IoDriver.readSectors, tryRead, h.readSector, ih, List.range'_succ]

/-- One of three attempts at the sector succeeds. -/
def Reads (d : IoDriver) (lba : ℕ) : Prop := ∃ attempt < 3, d.fails lba attempt = false

instance (lba : ℕ) : Decidable (d.Reads lba) :=
  inferInstanceAs (Decidable (∃ attempt, attempt < 3 ∧ d.fails lba attempt = false))

/-- Every sector can be read. -/
def Answers (d : IoDriver) : Prop := ∀ lba, d.Reads lba

theorem Readable.answers (h : d.Readable) : d.Answers := fun lba => ⟨0, by decide, h lba 0⟩

theorem tryRead_eq (lba : ℕ) : d.tryRead 0 3 lba =
    if d.Reads (lba % word32) then some (d.sector (lba % word32), lba) else none := by
  have htries : ∀ tries, d.tryRead 0 tries lba =
      if ∃ attempt < tries, d.fails (lba % word32) attempt = false then
        some (d.sector (lba % word32), lba) else none := by
    intro tries
    induction tries with
    | zero => simp [tryRead]
    | succ tries ih =>
      rw [tryRead, readSector]
      cases hfails : d.fails (lba % word32) tries with
      | false => rw [if_neg (by simp), if_pos ⟨tries, Nat.lt_succ_self _, hfails⟩]
      | true =>
        rw [if_pos rfl, Nat.add_zero, ih]
        refine if_congr ⟨?_, ?_⟩ rfl rfl
        · rintro ⟨attempt, hlt, hread⟩
          exact ⟨attempt, by omega, hread⟩
        · rintro ⟨attempt, hlt, hread⟩
          rcases Nat.lt_succ_iff_lt_or_eq.mp hlt with hlt | rfl
          · exact ⟨attempt, hlt, hread⟩
          · rw [hread] at hfails
            cases hfails
  exact htries 3

theorem readSectors_eq (passes lba : ℕ) : d.readSectors 0 passes lba =
    if ∀ s < passes, d.Reads ((lba + s) % word32) then
      some ((List.range' lba passes).map fun a => d.sector (a % word32)) else none := by
  induction passes generalizing lba with
  | zero => simp [IoDriver.readSectors]
  | succ passes ih =>
    have hsplit : (∀ s < passes + 1, d.Reads ((lba + s) % word32)) ↔
        d.Reads (lba % word32) ∧ ∀ s < passes, d.Reads ((lba + 1 + s) % word32) := by
      constructor
      · refine fun h => ⟨h 0 (Nat.succ_pos _), fun s hs => ?_⟩
        rw [Nat.add_assoc, Nat.add_comm 1]
        exact h (s + 1) (Nat.succ_lt_succ hs)
      · rintro ⟨hfirst, hrest⟩ s hs
        cases s with
        | zero => exact hfirst
        | succ s =>
          have := hrest s (Nat.lt_of_succ_lt_succ hs)
          rwa [Nat.add_assoc, Nat.add_comm 1] at this
    rw [IoDriver.readSectors, tryRead_eq, if_congr hsplit rfl rfl]
    by_cases hfirst : d.Reads (lba % word32)
    · rw [if_pos hfirst, Option.bind_some, ih]
      by_cases hrest : ∀ s < passes, d.Reads ((lba + 1 + s) % word32)
      · rw [if_pos hrest, if_pos ⟨hfirst, hrest⟩, List.range'_succ]
        rfl
      · rw [if_neg hrest, if_neg fun h => hrest h.2]
        rfl
    · rw [if_neg hfirst, if_neg fun h => hfirst h.1]
      rfl

/-- The buffer holds the sectors one after the other. -/
theorem buffer_eq (tail : ℕ → UInt8) {size lba j : ℕ} (hdvd : d.sectorSize ∣ size) (hj : j < size) :
    d.buffer tail size
      ((List.range' lba (size / d.sectorSize)).map fun a => d.sector (a % word32)) j =
      d.sector ((lba + j / d.sectorSize) % word32) (j % d.sectorSize) := by
  have hlt : j / d.sectorSize < size / d.sectorSize := Nat.div_lt_div_of_lt_of_dvd hdvd hj
  rw [buffer, if_pos hj]
  simp [List.getD_eq_getElem?_getD, hlt]

theorem buffer_behind (tail : ℕ → UInt8) (size : ℕ) (sectors : List (ℕ → UInt8)) :
    d.buffer tail size sectors size = tail 0 := by
  rw [buffer, if_neg (Nat.lt_irrefl _), Nat.sub_self]

end IoDriver

/-! ### The list of blocks -/

namespace Ext2Volume
variable {f : Ext2Volume} {offset count level : ℕ} {c : Copied UInt8}
  {bs : List (Option (ℕ → UInt8))}

theorem blockSize_pos (f : Ext2Volume) : 0 < f.blockSize := by
  rw [blockSize]
  positivity

/-- All sectors of the block can be read. -/
def CanRead (f : Ext2Volume) (lba : ℕ) : Prop :=
  ∀ s < f.blockSize / f.driver.sectorSize, f.driver.Reads
    ((f.startLba + lba * f.blockSize % word32 / f.driver.sectorSize + s) % word32)

instance (lba : ℕ) : Decidable (f.CanRead lba) :=
  inferInstanceAs (Decidable (∀ s < _, IoDriver.Reads _ _))

theorem readBlock_of_canRead {lba : ℕ} (h : f.CanRead lba) (t : ℕ → UInt8) :
    f.readBlock t lba = some (f.driver.buffer t f.blockSize
      ((List.range' (f.startLba + lba * f.blockSize % word32 / f.driver.sectorSize)
        (f.blockSize / f.driver.sectorSize)).map fun a => f.driver.sector (a % word32))) := by
  rw [CanRead] at h
  rw [readBlock, IoDriver.readSectors_eq, if_pos h]
  rfl

theorem readBlock_of_not_canRead {lba : ℕ} (h : ¬ f.CanRead lba) (t : ℕ → UInt8) :
    f.readBlock t lba = none := by
  rw [CanRead] at h
  rw [readBlock, IoDriver.readSectors_eq, if_neg h]
  rfl

theorem readBlock_eq (h : f.driver.Answers) (t : ℕ → UInt8) (lba : ℕ) :
    f.readBlock t lba = some (f.driver.buffer t f.blockSize
      ((List.range' (f.startLba + lba * f.blockSize % word32 / f.driver.sectorSize)
        (f.blockSize / f.driver.sectorSize)).map fun a => f.driver.sector (a % word32))) :=
  readBlock_of_canRead (fun _ _ => h _) t

/-- The block at a pointer, without the bytes before an inner offset. -/
def blockFrom (f : Ext2Volume) (tail : ℕ → UInt8) (off pointer : ℕ) : Option (ℕ → UInt8) :=
  (f.readBlock tail pointer).map fun block j => block (off + j)

/-- The blocks found below a pointer, after the blocks `bs` that were found before; a block
that cannot be read is `none`. -/
def walkIndirect (f : Ext2Volume) (tail : ℕ → UInt8) (offset : ℕ) :
    (level : ℕ) → List (Option (ℕ → UInt8)) → (pointer : ℕ) → List (Option (ℕ → UInt8))
  | 0, bs, pointer =>
    match f.readBlock tail pointer with
    | none => bs ++ [none]
    | some block => bs ++
      (((f.pointers block).drop ((offset - bs.length * f.blockSize) / f.blockSize / 4)).takeWhile
        (· ≠ 0)).map (f.blockFrom tail ((offset - bs.length * f.blockSize) % f.blockSize))
  | level + 1, bs, pointer =>
    match f.readBlock tail pointer with
    | none => bs ++ [none]
    | some block =>
      ((f.pointers block).takeWhile (· ≠ 0)).foldl (walkIndirect f tail offset level) bs

theorem blockFrom_zero (f : Ext2Volume) (t : ℕ → UInt8) : f.blockFrom t 0 = f.readBlock t := by
  funext p
  rw [blockFrom]
  cases f.readBlock t p with
  | none => rfl
  | some block => simp

theorem walkIndirect_isPrefix (t : ℕ → UInt8) (offset level : ℕ) (bs : List (Option (ℕ → UInt8)))
    (pointer : ℕ) : bs <+: f.walkIndirect t offset level bs pointer := by
  induction level generalizing bs pointer with
  | zero =>
    rw [walkIndirect]
    cases f.readBlock t pointer with
    | none => exact List.prefix_append _ _
    | some block => exact List.prefix_append _ _
  | succ level ih =>
    rw [walkIndirect]
    cases f.readBlock t pointer with
    | none => exact List.prefix_append _ _
    | some block =>
      dsimp only
      generalize (f.pointers block).takeWhile (· ≠ 0) = ps
      induction ps generalizing bs with
      | nil => exact List.prefix_refl _
      | cons p ps ihps => exact (ih bs p).trans (ihps _)

theorem copyBlocks_readBlock (t : ℕ → UInt8) (off : ℕ) (ps : List ℕ) (count : ℕ) :
    copyBlocks f.blockSize off (ps.map (f.readBlock t)) count =
      copyBlocks f.blockSize 0 (ps.map (f.blockFrom t off)) count := by
  rw [copyBlocks_shift, List.map_map]
  rfl

theorem readIndirect_done (t : ℕ → UInt8) (offset level : ℕ) (hc : c.ok = false ∨ c.left = 0)
    (pointer : ℕ) : f.readIndirect t offset level c pointer = c := by
  cases level <;> rw [readIndirect, if_pos hc]

/-- A copy from blocks that is gone on with below a pointer is a copy from more blocks. -/
theorem readIndirect_walk (t : ℕ → UInt8) (offset count level : ℕ)
    (bs : List (Option (ℕ → UInt8))) (pointer : ℕ) :
    f.readIndirect t offset level (copyBlocks f.blockSize 0 bs count) pointer =
      copyBlocks f.blockSize 0 (f.walkIndirect t offset level bs pointer) count := by
  induction level generalizing bs pointer with
  | zero =>
    rw [walkIndirect]
    by_cases hdone : (copyBlocks f.blockSize 0 bs count).ok = false ∨
        (copyBlocks f.blockSize 0 bs count).left = 0
    · rw [readIndirect_done t offset 0 hdone]
      cases f.readBlock t pointer with
      | none => exact (copyBlocks_append_of_done hdone).symm
      | some block => exact (copyBlocks_append_of_done hdone).symm
    · obtain ⟨hok, hleft⟩ := not_or.mp hdone
      rw [Bool.not_eq_false] at hok
      rw [readIndirect, if_neg hdone, copyBlocks_length_of_left hok hleft, readSinglyIndirect]
      cases f.readBlock t pointer with
      | none =>
        dsimp only
        rw [copyBlocks_append_of_ok hok, copyBlocks, if_neg hleft]
        rfl
      | some block =>
        dsimp only
        rw [copyBlocks_append_of_ok hok, copyBlocks_readBlock]
        rfl
  | succ level ih =>
    -- a list of pointers of the level below
    have hfold : ∀ (ps : List ℕ) bs, ps.foldl (f.readIndirect t offset level)
        (copyBlocks f.blockSize 0 bs count) =
        copyBlocks f.blockSize 0 (ps.foldl (f.walkIndirect t offset level) bs) count := by
      intro ps
      induction ps with
      | nil => exact fun _ => rfl
      | cons p ps ihps =>
        intro bs
        rw [List.foldl_cons, List.foldl_cons, ih, ihps]
    rw [walkIndirect]
    by_cases hdone : (copyBlocks f.blockSize 0 bs count).ok = false ∨
        (copyBlocks f.blockSize 0 bs count).left = 0
    · rw [readIndirect_done t offset _ hdone]
      cases f.readBlock t pointer with
      | none => exact (copyBlocks_append_of_done hdone).symm
      | some block =>
        dsimp only
        rw [← hfold]
        generalize (f.pointers block).takeWhile (· ≠ 0) = ps
        induction ps with
        | nil => rfl
        | cons p ps ihps => rw [List.foldl_cons, readIndirect_done t offset level hdone, ← ihps]
    · obtain ⟨hok, hleft⟩ := not_or.mp hdone
      rw [Bool.not_eq_false] at hok
      rw [readIndirect, if_neg hdone]
      cases f.readBlock t pointer with
      | none =>
        dsimp only
        rw [copyBlocks_append_of_ok hok, copyBlocks, if_neg hleft, Copied.append, List.append_nil]
      | some block => exact hfold _ bs

end Ext2Volume

namespace Ext2File
variable {f : Ext2File}

/-- The blocks that `ext2_read` comes to from an offset on. -/
def walk (f : Ext2File) (tail : ℕ → UInt8) (offset : ℕ) : List (Option (ℕ → UInt8)) :=
  let direct := ((f.directBlockPointers.drop (offset / f.blockSize)).takeWhile (· ≠ 0)).map
    (f.blockFrom tail (offset % f.blockSize))
  let singly := if f.singlyIndirect = 0 then direct
    else f.walkIndirect tail offset 0 direct f.singlyIndirect
  let doubly := if f.doublyIndirect = 0 then singly
    else f.walkIndirect tail offset 1 singly f.doublyIndirect
  if f.triplyIndirect = 0 then doubly
  else f.walkIndirect tail offset 2 doubly f.triplyIndirect

theorem direct_isPrefix (f : Ext2File) (t : ℕ → UInt8) (offset : ℕ) :
    ((f.directBlockPointers.drop (offset / f.blockSize)).takeWhile (· ≠ 0)).map
      (f.blockFrom t (offset % f.blockSize)) <+: f.walk t offset := by
  have hstep : ∀ level bs pointer, bs <+: if pointer = 0 then bs
      else f.walkIndirect t offset level bs pointer := by
    intro level bs pointer
    split_ifs
    · exact List.prefix_refl bs
    · exact Ext2Volume.walkIndirect_isPrefix t offset level bs pointer
  exact ((hstep 0 _ _).trans (hstep 1 _ _)).trans (hstep 2 _ _)

/-- All copies of `ext2_read` together are one copy from the blocks it comes to. -/
theorem readBlocks_walk (f : Ext2File) (t : ℕ → UInt8) (count offset : ℕ) :
    f.readBlocks t count offset = copyBlocks f.blockSize 0 (f.walk t offset) count := by
  have hstep : ∀ level bs pointer, (if pointer = 0 then copyBlocks f.blockSize 0 bs count
      else f.readIndirect t offset level (copyBlocks f.blockSize 0 bs count) pointer) =
      copyBlocks f.blockSize 0 (if pointer = 0 then bs
        else f.walkIndirect t offset level bs pointer) count := by
    intro level bs pointer
    split_ifs
    · rfl
    · exact Ext2Volume.readIndirect_walk t offset count level bs pointer
  rw [readBlocks, walk, Ext2Volume.copyBlocks_readBlock, hstep, hstep, hstep]

end Ext2File

end DosKernel
