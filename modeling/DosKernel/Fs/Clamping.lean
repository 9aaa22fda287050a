import DosKernel.Drivers.Framebuffer
import DosKernel.Fs.Sequential

/-! The clamp of a request to the end of a file or of the framebuffer. Five functions compare
the offset and the 32-bit sum of offset and count with the size; a sum that wraps passes, and
the count stays as large as it was asked for. -/

namespace DosKernel

open Lib

section Clamp
variable {size count offset r : ℕ}

/-- A request that is cut off at `r` bytes. -/
theorem clamp_le_iff (hsize : size < word32) (hcount : count < word32) (hlt : offset < size) :
    min (clip size count offset) r ≤ size - offset ↔
      offset + count < word32 ∨ r ≤ size - offset := by
  rcases Nat.lt_or_ge (offset + count) word32 with h | h
  · rw [clip_eq hlt h]
    simp only [h, true_or, iff_true]
    omega
  · rw [clip_of_wrap hsize hcount hlt h]
    omega

theorem clip_le_iff (hsize : size < word32) (hcount : count < word32) (hlt : offset < size) :
    clip size count offset ≤ size - offset ↔ offset + count < word32 := by
  rcases Nat.lt_or_ge (offset + count) word32 with h | h
  · rw [clip_eq hlt h]
    simp only [h, iff_true]
    omega
  · rw [clip_of_wrap hsize hcount hlt h]
    omega

theorem copied_le_iff (hsize : size < word32) (hcount : count < word32) (hlt : offset < size)
    (blockSize off : ℕ) (bs : List (Option (ℕ → UInt8))) :
    (copyResult (copyBlocks blockSize off bs (clip size count offset))).2.length ≤ size - offset ↔
      offset + count < word32 ∨ readableRun bs * blockSize ≤ size - offset := by
  rw [copyResult, copyBlocks_length]
  exact clamp_le_iff hsize hcount hlt

end Clamp

namespace Framebuffer

/-- The function copies at most so many bytes, and returns their number. -/
def ReadsAtMost (fb : Framebuffer) (buf count offset n : ℕ) : Prop :=
  ∃ k ≤ n, ∀ m, framebufferRead fb buf count offset m =
    (Int.bmod k word32, m.copy buf (fb.backbuffer + offset) k)

def WritesAtMost (fb : Framebuffer) (buf count offset n : ℕ) : Prop :=
  ∃ k ≤ n, ∀ m, framebufferWrite fb buf count offset m =
    (Int.bmod k word32, (m.copy (fb.backbuffer + offset) buf k).copy (fb.addr + offset) buf k)

/-- The count of both functions; nothing is copied behind the end. -/
def transferred (fb : Framebuffer) (count offset : ℕ) : ℕ :=
  if fb.size ≤ offset then 0 else clip fb.size count offset

variable {fb : Framebuffer} {buf count offset n k j : ℕ}

theorem copy_zero (m : Memory) (dst src : ℕ) : m.copy dst src 0 = m := by
  funext x
  simp [Memory.copy, Memory.write]

theorem read_eq (fb : Framebuffer) (buf count offset : ℕ) (m : Memory) :
    framebufferRead fb buf count offset m = (Int.bmod (fb.transferred count offset) word32,
      m.copy buf (fb.backbuffer + offset) (fb.transferred count offset)) := by
  rw [framebufferRead, transferred]
  split_ifs
  · rw [copy_zero]
    rfl
  · rfl

theorem write_eq (fb : Framebuffer) (buf count offset : ℕ) (m : Memory) :
    framebufferWrite fb buf count offset m = (Int.bmod (fb.transferred count offset) word32,
      (m.copy (fb.backbuffer + offset) buf (fb.transferred count offset)).copy (fb.addr + offset)
        buf (fb.transferred count offset)) := by
  rw [framebufferWrite, transferred]
  split_ifs
  · rw [copy_zero, copy_zero]
    rfl
  · rfl

theorem transferred_lt (hcount : count < word32) : fb.transferred count offset < word32 := by
  have hle := clip_le fb.size count offset
  rw [transferred]
  split_ifs <;> omega

theorem bmod_inj (hk : k < word32) (hj : j < word32)
    (h : Int.bmod (k : ℤ) word32 = Int.bmod j word32) : k = j := by
  have hmod := congrArg (· % (word32 : ℤ)) h
  simp only [Int.bmod_emod] at hmod
  rwa [Int.emod_eq_of_lt (by omega) (by omega), Int.emod_eq_of_lt (by omega) (by omega),
    Int.natCast_inj] at hmod

/-- The count that is returned tells how much was copied. -/
theorem exists_atMost_iff {x : Memory → ℤ × Memory} {e : ℕ → Memory → Memory}
    (hx : ∀ m, x m = (Int.bmod k word32, e k m)) (hk : k < word32) (hn : n < word32) :
    (∃ j ≤ n, ∀ m, x m = (Int.bmod j word32, e j m)) ↔ k ≤ n := by
  constructor
  · rintro ⟨j, hj, h⟩
    have hret := congrArg Prod.fst (h fun _ => 0)
    rw [hx] at hret
    dsimp only at hret
    exact (bmod_inj hk (hj.trans_lt hn) hret).trans_le hj
  · intro h
    exact ⟨k, h, hx⟩

theorem readsAtMost_iff (hcount : count < word32) (hn : n < word32) :
    fb.ReadsAtMost buf count offset n ↔ fb.transferred count offset ≤ n :=
  exists_atMost_iff (e := fun k m => m.copy buf (fb.backbuffer + offset) k)
    (read_eq fb buf count offset) (transferred_lt hcount) hn

theorem writesAtMost_iff (hcount : count < word32) (hn : n < word32) :
    fb.WritesAtMost buf count offset n ↔ fb.transferred count offset ≤ n :=
  exists_atMost_iff
    (e := fun k m => (m.copy (fb.backbuffer + offset) buf k).copy (fb.addr + offset) buf k)
    (write_eq fb buf count offset) (transferred_lt hcount) hn

theorem transferred_le_iff (hcount : count < word32) :
    fb.transferred count offset ≤ fb.size - offset ↔
      fb.size ≤ offset ∨ offset + count < word32 := by
  rw [transferred]
  split_ifs with h
  · simp [h]
  · rw [clip_le_iff fb.size_lt hcount (Nat.lt_of_not_le h)]
    simp [h]

end Framebuffer

/-- No more bytes are transferred than there are behind the offset, exactly if the offset lies
behind the end, the 32-bit sum does not wrap, or (in a file) the blocks that can be read have no
more. -/
theorem clamped_iff {count : ℕ} (hcount : count < word32) (offset : ℕ) :
    (∀ (f : Ext2File) tail, (f.read tail count offset).2.length ≤ f.size - offset ↔
      f.size ≤ offset ∨ offset + count < word32 ∨
        readableRun (f.walk tail offset) * f.blockSize ≤ f.size - offset) ∧
    (∀ (f : FatFile) tail, (f.read tail count offset).2.length ≤ f.size - offset ↔
      f.size ≤ offset ∨ offset + count < word32 ∨
        readableRun (f.chainBlocks tail count offset) * f.bytesPerSector ≤ f.size - offset) ∧
    (∀ (f : Iso9660File) tail, (f.read tail count offset).2.length ≤ f.extentSize - offset ↔
      f.extentSize ≤ offset ∨ offset + count < word32 ∨
        readableRun (f.extentBlocks tail count offset) * iso9660SectorSize ≤
          f.extentSize - offset) ∧
    (∀ (fb : Framebuffer) buf, fb.ReadsAtMost buf count offset (fb.size - offset) ↔
      fb.size ≤ offset ∨ offset + count < word32) ∧
    ∀ (fb : Framebuffer) buf, fb.WritesAtMost buf count offset (fb.size - offset) ↔
      fb.size ≤ offset ∨ offset + count < word32 := by
  refine ⟨fun f tail => ?_, fun f tail => ?_, fun f tail => ?_, fun fb buf => ?_, fun fb buf => ?_⟩
  · rw [Ext2File.read]
    split_ifs with h
    · simp [h]
    · rw [Ext2File.readBlocks_walk, copied_le_iff f.size_lt hcount (Nat.lt_of_not_le h)]
      simp only [h, false_or]
  · rw [FatFile.read]
    split_ifs with h
    · simp [h]
    · have hlt := Nat.lt_of_not_le h
      rw [copied_le_iff f.size_lt hcount hlt]
      simp only [h, false_or]
      -- a sum that wraps leaves the count as it is, and with it the length of the chain
      refine or_congr_right' fun hwrap => ?_
      rw [clip_of_wrap f.size_lt hcount hlt (Nat.le_of_not_lt hwrap)]
      rfl
  · rw [Iso9660File.read]
    split_ifs with h
    · simp [h]
    · rw [copied_le_iff f.size_lt hcount (Nat.lt_of_not_le h)]
      simp only [h, false_or]
      rfl
  · rw [Framebuffer.readsAtMost_iff hcount (by have := fb.size_lt; omega),
      Framebuffer.transferred_le_iff hcount]
  · rw [Framebuffer.writesAtMost_iff hcount (by have := fb.size_lt; omega),
      Framebuffer.transferred_le_iff hcount]

theorem clamped_of_no_wrap :
    (ext2Example.read (fun _ => 0xff) 2000 1000).2.length ≤ ext2Example.size - 1000 :=
  ((clamped_iff (by decide) 1000).1 ext2Example _).mpr (.inr (.inl (by decide)))

/-- The rest of a file is asked for with the largest count whose sum is 0: the whole last block
is stored. -/
theorem not_clamped :
    ¬ ∀ count < word32, ∀ offset < word32,
      (∀ (f : Ext2File) tail, (f.read tail count offset).2.length ≤ f.size - offset) ∧
      (∀ (f : FatFile) tail, (f.read tail count offset).2.length ≤ f.size - offset) ∧
      (∀ (f : Iso9660File) tail, (f.read tail count offset).2.length ≤ f.extentSize - offset) ∧
      (∀ (fb : Framebuffer) buf, fb.ReadsAtMost buf count offset (fb.size - offset)) ∧
      ∀ (fb : Framebuffer) buf, fb.WritesAtMost buf count offset (fb.size - offset) := by
  intro h
  have hread := (h 4294966272 (by decide) 1024 (by decide)).1 ext2Example fun _ => 0
  have hlen : (ext2Example.read (fun _ => 0) 4294966272 1024).2.length = 1024 := by
    decide +kernel
  rw [hlen] at hread
  exact absurd hread (by decide)

end DosKernel
