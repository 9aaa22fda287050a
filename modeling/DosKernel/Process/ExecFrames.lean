import DosKernel.Process.ExecSpace

/-! How many frames `process_execve` needs. A frame that `mmu_map_pages` takes becomes a table of
the directory, and there are 1024 tables at most. -/

namespace DosKernel

open Lib

def presentTables (m : Memory) (pd : ℕ) : ℕ :=
  ((Finset.range 1024).filter fun i => (entryAt m (pd + 4 * i)).present = true).card

/-- A directory under construction and `n` frames, which are free or tables of it. -/
structure Roomy (pd n : ℕ) (s : Mmu) : Prop extends Tables s pd where
  frames : n ≤ freeFrames s.bitmap + presentTables s.mem pd

section Frames
variable {b : Bitmap} {s s' : Mmu} {pd real virt len n k addr passes i ph stack : ℕ}
  {rw user : Bool}

theorem presentTables_le (m : Memory) (pd : ℕ) : presentTables m pd ≤ 1024 :=
  (Finset.card_filter_le _ _).trans_eq (Finset.card_range _)

/-- An allocation takes no more frames than it is asked for. -/
theorem bitmapAllocContiguousPages_free (b : Bitmap) (hn : 1 ≤ n) :
    freeFrames b ≤ freeFrames (bitmapAllocContiguousPages b n).2 + n := by
  rcases bitmapAllocContiguousPages_spec b hn with ⟨he, -⟩ | ⟨f, b', he, hfree, hm, -⟩
  · rw [he]
    exact Nat.le_add_right _ _
  · rw [he]
    exact (freeFrames_marks hfree hm).ge

theorem bitmapAllocPage_free_le (b : Bitmap) :
    freeFrames b ≤ freeFrames (bitmapAllocPage b).2 + 1 := by
  rw [bitmapAllocPage_eq]
  exact bitmapAllocContiguousPages_free b le_rfl

theorem Stepped.present_iff (h : Stepped s s' pd real virt rw user) (hi : i < 1024) :
    (entryAt s'.mem (pd + 4 * i)).present = true ↔
      i = pdIndex virt ∨ (entryAt s.mem (pd + 4 * i)).present = true := by
  by_cases he : i = pdIndex virt
  · rw [he, h.self.1]
    exact iff_of_true rfl (.inl rfl)
  · rw [h.set.other i hi he]
    simp [he]

theorem Stepped.presentTables_eq (h : Stepped s s' pd real virt rw user) (hv : virt < word32) :
    presentTables s'.mem pd = presentTables s.mem pd +
      if (entryAt s.mem (pd + 4 * pdIndex virt)).present then 0 else 1 := by
  have hinsert : (Finset.range 1024).filter (fun i => (entryAt s'.mem (pd + 4 * i)).present = true) =
      insert (pdIndex virt)
        ((Finset.range 1024).filter fun i => (entryAt s.mem (pd + 4 * i)).present = true) := by
    ext i
    rw [Finset.mem_filter, Finset.mem_insert, Finset.mem_filter, Finset.mem_range]
    constructor
    · rintro ⟨hlt, hp⟩
      exact ((h.present_iff hlt).mp hp).imp_right fun hp => ⟨hlt, hp⟩
    · rintro (rfl | ⟨hlt, hp⟩)
      · exact ⟨pdIndex_lt hv, (h.present_iff (pdIndex_lt hv)).mpr (.inl rfl)⟩
      · exact ⟨hlt, (h.present_iff hlt).mpr (.inr hp)⟩
  unfold presentTables
  rw [hinsert]
  split_ifs with hp
  · rw [Finset.insert_eq_of_mem (by simpa using ⟨pdIndex_lt hv, hp⟩), Nat.add_zero]
  · exact Finset.card_insert_of_notMem (by simp [hp])

namespace Roomy

theorem mapPage (h : Roomy pd n s) (hv : virt < word32) (real : ℕ) (rw user : Bool) :
    Roomy pd n (mapPage s pd real virt rw user) := by
  have hstep := h.toTables.step hv real rw user
  refine ⟨hstep.tables, h.frames.trans ?_⟩
  rw [mapPage_bitmap, hstep.presentTables_eq hv]
  split_ifs
  · rw [Nat.add_zero]
  · have hfree := bitmapAllocPage_free_le s.bitmap
    omega

theorem mapPages (h : Roomy pd n s) (hv : virt < word32) (real len : ℕ) (rw user : Bool) :
    Roomy pd n (mmuMapPages s pd real virt len rw user) := by
  induction len generalizing s real virt with
  | zero => exact h
  | succ len ih =>
    rw [mmuMapPages]
    exact ih (h.mapPage hv real rw user) (Nat.mod_lt _ (by decide)) _

theorem mapSegment (h : Roomy pd n s) (addr ph : ℕ) : Roomy pd n (mapSegment s pd addr ph) := by
  rw [DosKernel.mapSegment]
  split_ifs
  · exact h.mapPages (programHeader_address s ph) _ _ _ _
  · exact h

theorem mapSegments (h : Roomy pd n s) (addr passes i ph : ℕ) :
    Roomy pd n (mapSegments pd addr passes i ph s) := by
  induction passes generalizing s i ph with
  | zero => exact h
  | succ passes ih =>
    rw [DosKernel.mapSegments]
    split_ifs
    · exact ih (h.mapSegment addr ph) _ _
    · exact h

theorem take (h : Roomy pd (n + k) s) (hk : 1 ≤ k) :
    Roomy pd n { s with bitmap := (bitmapAllocContiguousPages s.bitmap k).2 } := by
  obtain ⟨hlater, -⟩ := bitmapAllocContiguousPages_takes h.region hk
  have hstart : (bitmapAllocContiguousPages s.bitmap k).2.start ≠ 0 := by
    rw [hlater.start_eq]
    exact h.start
  refine ⟨⟨hlater.region h.region, hstart, hlater.marked h.dir, h.nonnull, fun i hi hp => ?_,
    h.distinct⟩, ?_⟩
  · exact (h.table i hi hp).imp_right fun hm => ⟨hlater.marked hm.1, hm.2⟩
  · have hframes := h.frames
    have hfree := bitmapAllocContiguousPages_free s.bitmap hk
    dsimp only
    omega

theorem takePage (h : Roomy pd (n + 1) s) :
    Roomy pd n { s with bitmap := (bitmapAllocPage s.bitmap).2 } := by
  have htake := h.take le_rfl
  rwa [← bitmapAllocPage_eq] at htake

theorem mapStackAndHeap (h : Roomy pd (n + 1024) s) (stack : ℕ) :
    Roomy pd n (mapStackAndHeap s pd stack) :=
  ((h.mapPages (by decide) _ _ _ _).take (by decide)).mapPages (by decide) _ _ _ _

/-- A frame is found as long as there are more than the tables may take. -/
theorem free (h : Roomy pd (n + 1024) s) : n ≤ freeFrames s.bitmap := by
  have hframes := h.frames
  have htables := presentTables_le s.mem pd
  omega

end Roomy

theorem bitmapAllocPage_ne_of_free (hr : b.Region) (h0 : b.start ≠ 0) (h : 1 ≤ freeFrames b) :
    (bitmapAllocPage b).1 ≠ 0 := by
  rcases bitmapAllocPage_free hr h0 with ⟨-, hnone⟩ | ⟨hne, -⟩
  · omega
  · exact hne

/-- The directory, the stack and the heap of the program take 1027 frames. -/
theorem execImage_roomy (hr : s.bitmap.Region) (h0 : s.bitmap.start ≠ 0)
    (h : n + 1027 ≤ freeFrames s.bitmap) (addr : ℕ) :
    Roomy (execImage s addr).1 n (execImage s addr).2.2 := by
  have hne := bitmapAllocPage_ne_of_free hr h0 (by omega)
  have hdir : Roomy (mmuNewPageDirectory s).1 (n + 1024 + 2) (mmuNewPageDirectory s).2 := by
    refine ⟨(newSpace_init hr h0 hne).toTables, ?_⟩
    have hfree := bitmapAllocPage_free_le s.bitmap
    have hbitmap : (mmuNewPageDirectory s).2.bitmap = (bitmapAllocPage s.bitmap).2 := rfl
    rw [hbitmap]
    omega
  have hstart : Roomy (mmuNewPageDirectory s).1 (n + 1024) (imageStart s) := hdir.take (by decide)
  rw [execImage_eq]
  dsimp only
  generalize (addr + (imageStart s).view.load (addr + 28) 4) % word32 = ph
  exact (hstart.mapSegments addr 65536 1 ph).mapStackAndHeap _

theorem pages_bitmap {m : Memory} {r : ℕ × ℕ × Mmu} {page strs : ℕ}
    (hr : r = (page, strs, { s with mem := m })) : r.2.2.bitmap = s.bitmap := by
  rw [hr]

theorem vectorPages_roomy (h : Roomy pd (n + 2) s) (hv : virt + 4096 < word32) :
    ∃ s', Roomy pd n s' ∧ s'.bitmap = (vectorPages s pd virt).2.2.bitmap := by
  have hpages := h.takePage.takePage
  have hmap := hpages.mapPages (show virt < word32 by omega) (bitmapAllocPage s.bitmap).1 1 true true
  exact ⟨_, hmap.mapPages hv (bitmapAllocPage (bitmapAllocPage s.bitmap).2).1 1 true true,
    (pages_bitmap (r := vectorPages s pd virt) rfl).symm⟩

end Frames

end DosKernel
