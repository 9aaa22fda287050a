import DosKernel.Frames.Ownership

/-! Where the ranges of the frame allocator lie. `bitmap_init` rounds both ends of its
region up to a page, so that the last frame may reach behind the region; and
`bitmap_free_pages` divides a signed difference, which is negative from 2 GiB on. -/

namespace DosKernel

/-- The first page boundary from an address on. -/
def pageUp (a : ℕ) : ℕ := (a + 4095) / 4096 * 4096

/-- The pages of the region, the last of them possibly a part of one. -/
def regionPages (start max : ℕ) : ℕ := (max - pageUp start + 4095) / 4096

/-- The frames that an allocation looks at: whole words of bits. -/
def searchedFrames (start max : ℕ) : ℕ := 32 * (regionPages start max / 32)

/-- A region of 32-bit addresses with room for 64 frames. -/
structure Spacious (start max : ℕ) : Prop where
  lt : start < max
  max_lt : max < word32
  room : pageUp start + 64 * bitmapPageSize ≤ max

/-- The frames looked at lie in the region and in 2 GiB; or the size of the region, rounded
up, is 0, and there are none. -/
def FramesFit (start max : ℕ) : Prop :=
  word32 - bitmapPageSize < max - pageUp start ∨
  searchedFrames start max * bitmapPageSize ≤ max - pageUp start ∧
    searchedFrames start max ≤ 524288

/-- The range of `n` pages that an allocation returned consists of whole pages in
`[start, max)`, and freeing it, now or later, clears the bits that the allocation set. -/
structure Bitmap.GrantsWithin (b : Bitmap) (start max n : ℕ) (result : ℕ × Bitmap) : Prop where
  aligned : result.1 % bitmapPageSize = 0
  above : start ≤ result.1
  below : result.1 + n * bitmapPageSize ≤ max
  freed : ∀ c : Bitmap, c.start = b.start → ∀ g,
    (bitmapFreePages c result.1 n).bit g = (c.bit g && !(result.2.bit g && !b.bit g))

/-- Every allocation that succeeds is of that kind. -/
def Bitmap.RangesWithin (b : Bitmap) (start max : ℕ) : Prop :=
  (∀ n, 1 ≤ n → (bitmapAllocContiguousPages b n).1 ≠ 0 →
    b.GrantsWithin start max n (bitmapAllocContiguousPages b n)) ∧
  ((bitmapAllocPage b).1 ≠ 0 → b.GrantsWithin start max 1 (bitmapAllocPage b))

section Geometry
variable {start max : ℕ}

theorem Spacious.init_start (h : Spacious start max) (memory : ℕ → BitVec 32) :
    (bitmapInit memory start max).start = pageUp start := by
  have hroom := h.room
  have hmax := h.max_lt
  simp only [bitmapInit, pageUp, bitmapPageSize, word32] at *
  by_cases hwhole : start % 4096 = 0
  · simp only [hwhole, ne_eq, not_true_eq_false, if_false]
    omega
  · simp only [hwhole, ne_eq, not_false_eq_true, if_true]
    omega

theorem Spacious.init_frames (h : Spacious start max) (memory : ℕ → BitVec 32) :
    (bitmapInit memory start max).frames =
      if word32 - bitmapPageSize < max - pageUp start then 0 else regionPages start max := by
  have hstart := h.init_start memory
  have hroom := h.room
  have hmax := h.max_lt
  simp only [bitmapInit] at hstart ⊢
  rw [hstart]
  have hsub : (max + word32 - pageUp start) % word32 = max - pageUp start := by
    simp only [word32, bitmapPageSize] at *
    omega
  rw [hsub, regionPages]
  have hlt : max - pageUp start < word32 := by omega
  generalize max - pageUp start = room at hlt ⊢
  by_cases hwrap : word32 - bitmapPageSize < room
  · have hpart : room % bitmapPageSize ≠ 0 := by
      simp only [bitmapPageSize, word32] at *
      omega
    rw [if_pos hwrap, if_pos hpart]
    simp only [bitmapPageSize, word32] at *
    omega
  · rw [if_neg hwrap]
    split_ifs
    · simp only [bitmapPageSize, word32] at *
      omega
    · simp only [bitmapPageSize, word32] at *
      omega

theorem Spacious.searched_eq (h : Spacious start max) (memory : ℕ → BitVec 32)
    (hwrap : ¬ word32 - bitmapPageSize < max - pageUp start) :
    (bitmapInit memory start max).len * 32 = searchedFrames start max := by
  rw [Bitmap.len, h.init_frames, if_neg hwrap, searchedFrames, Nat.mul_comm]

/-- The 64 frames of the room are among those looked at. -/
theorem Spacious.le_searched (h : Spacious start max) : 64 ≤ searchedFrames start max := by
  have hroom := h.room
  simp only [searchedFrames, regionPages, bitmapPageSize] at *
  omega

theorem Spacious.searched_le (h : Spacious start max) : searchedFrames start max ≤ 1048576 := by
  have hmax := h.max_lt
  simp only [searchedFrames, regionPages, word32] at *
  omega

end Geometry

/-! ### The signed difference -/

/-- An index is below 2 GiB, or that of a negative number. -/
theorem pageIndex_range (start addr : ℕ) :
    pageIndex start addr < 524288 ∨ 4294443008 ≤ pageIndex start addr := by
  have hle : Int.bmod ((addr : ℤ) - start) word32 < 2147483648 :=
    Int.bmod_lt (by decide)
  have hge : -2147483648 ≤ Int.bmod ((addr : ℤ) - start) word32 :=
    Int.le_bmod (by decide)
  unfold pageIndex
  generalize Int.bmod ((addr : ℤ) - start) word32 = d at hle hge ⊢
  simp only [bitmapPageSize, word32]
  rcases Int.le_total 0 d with hd | hd
  · rw [Int.tdiv_eq_ediv_of_nonneg hd]
    omega
  · have hneg : d.tdiv 4096 = -((-d) / 4096) := by
      rw [← Int.tdiv_eq_ediv_of_nonneg (by omega), Int.neg_tdiv, neg_neg]
    rw [show ((4096 : ℕ) : ℤ) = 4096 from rfl, hneg]
    omega

/-- So no call clears the bit of a frame from 2 GiB on. -/
theorem bit_bitmapFreePages_of_high {g : ℕ} (hg : 524288 ≤ g) (hg' : g < 4294443008) (n : ℕ) :
    ∀ (b : Bitmap) (addr : ℕ), (bitmapFreePages b addr n).bit g = b.bit g := by
  induction n with
  | zero => intro b addr; rfl
  | succ n ih =>
    intro b addr
    have hindex := pageIndex_range b.start addr
    rw [bitmapFreePages, ih, bit_disable b _ (Nat.mod_lt _ (by norm_num))]
    have hne : g ≠ pageIndex b.start addr / 32 * 32 + pageIndex b.start addr % 32 := by omega
    simp [hne]

/-! ### Allocations -/

section Allocations
variable {start max n : ℕ} {b : Bitmap}

/-- An allocation from a region whose frames fit. -/
theorem FramesFit.grantsWithin (hfit : FramesFit start max) (h : Spacious start max)
    (memory : ℕ → BitVec 32) (hstart : b.start = (bitmapInit memory start max).start)
    (hframes : b.frames = (bitmapInit memory start max).frames) (hn : 1 ≤ n)
    (hne : (bitmapAllocContiguousPages b n).1 ≠ 0) :
    b.GrantsWithin start max n (bitmapAllocContiguousPages b n) := by
  rw [h.init_start] at hstart
  rcases bitmapAllocContiguousPages_spec b hn with ⟨heq, -⟩ | ⟨f, b', heq, hfree, hm, -⟩
  · exact absurd (congrArg Prod.fst heq) hne
  have hlast := (hfree (f + n - 1) (by omega) (by omega)).1
  rw [Bitmap.len, hframes, h.init_frames] at hlast
  have hwrap : ¬ word32 - bitmapPageSize < max - pageUp start := by
    intro hwrap
    rw [if_pos hwrap] at hlast
    omega
  obtain ⟨hin, hlow⟩ := hfit.resolve_left hwrap
  rw [if_neg hwrap, Nat.mul_comm, ← searchedFrames] at hlast
  have hroom := h.room
  have hmax := h.max_lt
  have hup : start ≤ pageUp start := by rw [pageUp]; omega
  have hpage : pageUp start % bitmapPageSize = 0 := by rw [pageUp, bitmapPageSize]; omega
  have hfn : f + n ≤ searchedFrames start max := by omega
  have htop : pageUp start + (f + n) * bitmapPageSize ≤ max := by
    have hmul := Nat.mul_le_mul_right bitmapPageSize hfn
    omega
  have haddr : (b.start + f * bitmapPageSize) % word32 = pageUp start + f * bitmapPageSize := by
    rw [hstart, Nat.mod_eq_of_lt]
    simp only [bitmapPageSize, word32] at *
    omega
  rw [haddr] at heq
  refine ⟨?_, ?_, ?_, fun c hc g => ?_⟩
  · rw [heq]
    simp only [bitmapPageSize] at *
    omega
  · rw [heq]
    exact hup.trans (Nat.le_add_right _ _)
  · rw [heq, Nat.add_assoc, ← Nat.add_mul]
    exact htop
  · have hclear := bit_bitmapFreePages (n := n) c (f := f) (by omega)
      (by rw [hc, hstart]; exact htop.trans hmax.le) g
    rw [hc, hstart] at hclear
    rw [heq, hclear, hm.bit_eq]
    by_cases hg : f ≤ g ∧ g < f + n
    · simp [hg, (hfree g hg.1 hg.2).2]
    · simp [hg]

/-- On the empty bitmap all frames behind the reserved ones go in one range. -/
theorem Spacious.alloc_all (h : Spacious start max) (memory : ℕ → BitVec 32)
    (hwrap : ¬ word32 - bitmapPageSize < max - pageUp start) : ∃ b',
    bitmapAllocContiguousPages (bitmapInit memory start max) (searchedFrames start max - 32) =
      (pageUp start + 32 * bitmapPageSize, b') ∧
    (bitmapInit memory start max).Marks b' 32 (searchedFrames start max - 32) := by
  have hsearched := h.searched_eq memory hwrap
  have hle := h.le_searched
  have hroom := h.room
  have hmax := h.max_lt
  have hbit : ∀ g < searchedFrames start max,
      (bitmapInit memory start max).bit g = decide (g < 32) := fun g hg =>
    bit_bitmapInit memory start max (by rw [← Bitmap.len, hsearched]; exact hg)
  have hfree : (bitmapInit memory start max).Free 32 (searchedFrames start max - 32) := by
    intro g hg hg'
    refine ⟨by omega, ?_⟩
    rw [hbit g (by omega)]
    simp
    omega
  have hlow : ∀ f' < 32, ¬ (bitmapInit memory start max).Free f' (searchedFrames start max - 32) := by
    intro f' hf' hfree'
    have hclear := (hfree' f' le_rfl (by omega)).2
    rw [hbit f' (by omega)] at hclear
    simp at hclear
    omega
  rcases bitmapAllocContiguousPages_spec (bitmapInit memory start max)
      (n := searchedFrames start max - 32) (by omega) with ⟨-, hnone⟩ | ⟨f, b', heq, hf, hm, hlow'⟩
  · exact absurd hfree (hnone 32)
  · obtain rfl : f = 32 := by
      have hle : ¬ f < 32 := fun hlt => hlow f hlt hf
      have hge : ¬ 32 < f := fun hlt => hlow' 32 hlt hfree
      omega
    refine ⟨b', ?_, hm⟩
    rw [heq, h.init_start, Nat.mod_eq_of_lt]
    simp only [bitmapPageSize, word32] at *
    omega

/-- Then the range keeps to the region only when the frames fit. -/
theorem Spacious.framesFit (h : Spacious start max) (memory : ℕ → BitVec 32)
    (hwrap : ¬ word32 - bitmapPageSize < max - pageUp start)
    (hranges : (bitmapInit memory start max).RangesWithin start max) : FramesFit start max := by
  obtain ⟨b', heq, hm⟩ := h.alloc_all memory hwrap
  have hle := h.le_searched
  have hgrant := hranges.1 (searchedFrames start max - 32) (by omega)
    (by rw [heq]; simp only [bitmapPageSize]; omega)
  have hbelow := hgrant.below
  rw [heq] at hbelow
  refine .inr ⟨?_, ?_⟩
  · simp only [bitmapPageSize] at *
    omega
  · -- the bit of the last frame is set by the allocation and stays set
    by_contra hhigh
    have hsearched := h.searched_le
    have hset : b'.bit (searchedFrames start max - 1) = true := by
      rw [hm.bit_eq]
      simp
      omega
    have hclear : (bitmapInit memory start max).bit (searchedFrames start max - 1) = false := by
      rw [bit_bitmapInit memory start max
        (by rw [← Bitmap.len, h.searched_eq memory hwrap]; omega)]
      simp
      omega
    have hfreed := hgrant.freed b' hm.start_eq (searchedFrames start max - 1)
    rw [heq, bit_bitmapFreePages_of_high (by omega) (by omega), hset, hclear] at hfreed
    cases hfreed

end Allocations

/-! ### Runs -/

theorem frameStep_region {s s' : FrameState} {o : FrameOp} (h : frameStep s o = some s') :
    s'.bitmap.start = s.bitmap.start ∧ s'.bitmap.frames = s.bitmap.frames := by
  have halloc : ∀ n, 1 ≤ n → (bitmapAllocContiguousPages s.bitmap n).2.start = s.bitmap.start ∧
      (bitmapAllocContiguousPages s.bitmap n).2.frames = s.bitmap.frames := by
    intro n hn
    rcases bitmapAllocContiguousPages_spec s.bitmap hn with ⟨heq, -⟩ | ⟨f, b', heq, -, hm, -⟩
    · rw [heq]
      exact ⟨rfl, rfl⟩
    · rw [heq]
      exact ⟨hm.start_eq, hm.frames_eq⟩
  cases o with
  | allocPage =>
    obtain rfl := Option.some.inj h
    rw [bitmapAllocPage_eq]
    exact halloc 1 le_rfl
  | allocContiguousPages n =>
    rw [frameStep] at h
    split_ifs at h with hn
    obtain rfl := Option.some.inj h
    exact halloc n (by omega)
  | freePages r =>
    rw [frameStep] at h
    split_ifs at h
    obtain rfl := Option.some.inj h
    exact ⟨bitmapFreePages_start _ _ _, bitmapFreePages_frames _ _ _⟩

/-- In every run from `bitmap_init` every range that is returned lies in the region and is
freed as it was allocated, exactly if the frames of the region fit. -/
theorem ranges_within_iff {start max : ℕ} (h : Spacious start max) (memory : ℕ → BitVec 32) :
    (∀ ops s, Lib.Run frameStep Lib.Anything
        { bitmap := bitmapInit memory start max, live := [] } ops s →
      s.bitmap.RangesWithin start max) ↔ FramesFit start max := by
  constructor
  · intro hall
    by_cases hwrap : word32 - bitmapPageSize < max - pageUp start
    · exact .inl hwrap
    · have hinit := hall [] { bitmap := bitmapInit memory start max, live := [] } (.nil _)
      exact h.framesFit memory hwrap hinit
  · intro hfit ops s hrun
    have hregion : s.bitmap.start = (bitmapInit memory start max).start ∧
        s.bitmap.frames = (bitmapInit memory start max).frames := by
      refine hrun.invariant (I := fun s => s.bitmap.start = (bitmapInit memory start max).start ∧
        s.bitmap.frames = (bitmapInit memory start max).frames) (fun s o s' hs _ hstep => ?_) ⟨rfl, rfl⟩
      obtain ⟨h1, h2⟩ := frameStep_region hstep
      exact ⟨h1.trans hs.1, h2.trans hs.2⟩
    refine ⟨fun n hn hne => hfit.grantsWithin h memory hregion.1 hregion.2 hn hne, fun hne => ?_⟩
    rw [bitmapAllocPage_eq] at hne ⊢
    exact hfit.grantsWithin h memory hregion.1 hregion.2 le_rfl hne

/-- 1 MiB at 1 MiB. -/
theorem ranges_within_one_mib :
    (bitmapInit (fun _ => 0#32) 0x100000 0x200000).RangesWithin 0x100000 0x200000 := by
  have hspacious : Spacious 0x100000 0x200000 := ⟨by decide, by decide, by decide⟩
  have hranges := (ranges_within_iff hspacious fun _ => 0#32).mpr (.inr ⟨by decide, by decide⟩)
  exact hranges [] { bitmap := bitmapInit (fun _ => 0#32) 0x100000 0x200000, live := [] } (.nil _)

/-- 3 GiB of memory: a range that reaches behind 2 GiB is not freed. -/
theorem ranges_not_freed : ¬ ∀ (memory : ℕ → BitVec 32) (start max : ℕ), Spacious start max →
    ∀ ops s, Lib.Run frameStep Lib.Anything
      { bitmap := bitmapInit memory start max, live := [] } ops s →
    s.bitmap.RangesWithin start max := by
  intro h
  have hspacious : Spacious 0x100000 0xc0000000 := ⟨by decide, by decide, by decide⟩
  have hranges := h (fun _ => 0#32) 0x100000 0xc0000000 hspacious []
    { bitmap := bitmapInit (fun _ => 0#32) 0x100000 0xc0000000, live := [] } (.nil _)
  rcases hspacious.framesFit (fun _ => 0#32) (by decide) hranges with hwrap | ⟨-, hlow⟩
  · exact absurd hwrap (by decide)
  · exact absurd hlow (by decide)

end DosKernel
