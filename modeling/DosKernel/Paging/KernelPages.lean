import DosKernel.Frames.Ownership
import DosKernel.Paging.KernelHalf
import DosKernel.Paging.NullTables

/-! `mmu_alloc_pages`: the search for unmapped addresses, which goes around the address
space, and the mapping, which may need more page tables than there are frames. -/

namespace DosKernel

open Lib

/-! ### The search -/

section Search
variable {m : Memory} {pdt pages fuel addr a : ℕ}

variable {s : Mmu}

theorem exists_firstGap {x : ℕ} (hend : s.kernelEnd % 4096 = 0) (hx : x < word32) (hxa : x % 4096 = 0)
    (hgap : rangeUnmapped s.mem s.currentPdt x pages = true) :
    ∃ a n, FirstGap s pages a ∧ a = (s.kernelEnd + n * bitmapPageSize) % word32 ∧
      (s.kernelEnd ≤ x → s.kernelEnd + n * bitmapPageSize ≤ x) := by
  have hex : ∃ n, rangeUnmapped s.mem s.currentPdt ((s.kernelEnd + n * bitmapPageSize) % word32) pages =
      true := by
    refine ⟨(x + word32 - s.kernelEnd % word32) / 4096, ?_⟩
    have hsame : (s.kernelEnd + (x + word32 - s.kernelEnd % word32) / 4096 * bitmapPageSize) % word32 =
        x := by
      simp only [bitmapPageSize, word32] at *
      omega
    rw [hsame, hgap]
  obtain ⟨n, hgap', hbelow, hmin⟩ : ∃ n,
      rangeUnmapped s.mem s.currentPdt ((s.kernelEnd + n * bitmapPageSize) % word32) pages = true ∧
      (∀ k < n, rangeUnmapped s.mem s.currentPdt ((s.kernelEnd + k * bitmapPageSize) % word32) pages =
        false) ∧
      ∀ k, rangeUnmapped s.mem s.currentPdt ((s.kernelEnd + k * bitmapPageSize) % word32) pages = true →
        n ≤ k :=
    ⟨Nat.find hex, Nat.find_spec hex, fun k hk => by simpa using Nat.find_min hex hk,
      fun k hk => Nat.find_min' hex hk⟩
  refine ⟨_, n, ⟨n, rfl, hgap', hbelow⟩, rfl, fun hle => ?_⟩
  have hle' : n ≤ (x - s.kernelEnd) / 4096 := by
    refine hmin _ ?_
    have hsame : (s.kernelEnd + (x - s.kernelEnd) / 4096 * bitmapPageSize) % word32 = x := by
      simp only [bitmapPageSize, word32] at *
      omega
    rw [hsame, hgap]
  simp only [bitmapPageSize]
  omega

theorem firstGap_unique {a a' : ℕ} (h : FirstGap s pages a) (h' : FirstGap s pages a') : a = a' := by
  obtain ⟨n, rfl, hgap, hbelow⟩ := h
  obtain ⟨n', rfl, hgap', hbelow'⟩ := h'
  rcases Nat.lt_trichotomy n n' with hlt | rfl | hlt
  · rw [hbelow' n hlt] at hgap
    cases hgap
  · rfl
  · rw [hbelow n' hlt] at hgap'
    cases hgap'

end Search

/-! ### The page tables -/

def freeFrames (b : Bitmap) : ℕ := b.len * 32 - b.allocated.card

theorem allocated_le (b : Bitmap) : b.allocated.card ≤ b.len * 32 :=
  (Finset.card_filter_le _ _).trans_eq (Finset.card_range _)

theorem freeFrames_marks {b b' : Bitmap} {f n : ℕ} (hfree : b.Free f n) (hm : b.Marks b' f n) :
    freeFrames b' + n = freeFrames b := by
  have hcard := card_allocated_marks hfree hm
  have hlen : b'.len = b.len := by simp [Bitmap.len, hm.frames_eq]
  have hle := allocated_le b'
  simp only [freeFrames, hlen] at *
  omega

/-- An allocation of a page takes a frame if there is one. -/
theorem bitmapAllocPage_free {b : Bitmap} (hr : b.Region) (h0 : b.start ≠ 0) :
    (bitmapAllocPage b).1 = 0 ∧ freeFrames b = 0 ∨
      (bitmapAllocPage b).1 ≠ 0 ∧ freeFrames (bitmapAllocPage b).2 + 1 = freeFrames b := by
  have hnull := bitmapAllocPage_null_iff hr h0
  rcases bitmapAllocPage_cases hr h0 with he | ⟨hne, -⟩
  · left
    refine ⟨by rw [he], ?_⟩
    have hall := hnull.mp (by rw [he])
    have hallocated : b.allocated = Finset.range (b.len * 32) :=
      Finset.filter_true_of_mem fun f hf => hall f (Finset.mem_range.mp hf)
    rw [freeFrames, hallocated, Finset.card_range, Nat.sub_self]
  · right
    refine ⟨hne, ?_⟩
    rcases bitmapAllocContiguousPages_spec b le_rfl with ⟨he, -⟩ | ⟨f, b', he, hfree, hm, -⟩
    · rw [bitmapAllocPage_eq, he] at hne
      exact absurd rfl hne
    · rw [bitmapAllocPage_eq, he]
      exact freeFrames_marks hfree hm

section Needed
variable {s s' : Mmu} {pdt real virt len : ℕ} {rw user : Bool}

theorem Directory.tree (h : Directory s pdt) : Tree s.mem pdt := by
  refine ⟨h.dir.isPage h.region, ?_, fun k hk l hl hpk hpl he => ?_⟩
  · rintro ⟨k, hk, hp, hf⟩
    rcases h.table k hk hp with h0 | ⟨-, hne⟩
    · exact h.nonnull (hf.symm.trans h0)
    · exact hne hf
  · exact h.distinct k hk l hl hpk hpl he (h.allocated k hk hpk)

/-- The table of a step is fresh, also if it is the page at `NULL`. -/
theorem Directory.freshTable (h : Directory s pdt) (virt : ℕ) : FreshTable s pdt virt := by
  intro _
  rcases bitmapAllocPage_cases h.region h.start with he | ⟨hne, hgr, -⟩
  · rw [he]
    refine ⟨isPage_zero, h.nonnull.symm, ?_⟩
    rintro ⟨k, hk, hp, hf⟩
    exact h.allocated k hk hp hf
  · refine ⟨hgr.isPage, fun he => hgr.not_marked (he ▸ h.dir), ?_⟩
    rintro ⟨k, hk, hp, hf⟩
    rcases h.table k hk hp with h0 | ⟨hm, -⟩
    · exact hne (hf.symm.trans h0)
    · exact hgr.not_marked (hf ▸ hm)

end Needed

/-! ### More tables than frames -/

section Lost
variable {s s' : Mmu} {pdt real virt len v frame : ℕ} {rw user : Bool}

/-- The address `v` does not lead to `frame`. -/
def LostAt (m : Memory) (pdt v frame : ℕ) : Prop :=
  ∀ e : PageEntry, pageOf m pdt v = some e → e.frame ≠ frame

/-- One step, with no frame left, for a page behind a table at `NULL`: another absent
entry clears that table, and another page in it leads elsewhere. -/
theorem Stepped.lost (h : Stepped s s' pdt real virt rw user) (ht : Tables s pdt)
    (hfull : (bitmapAllocPage s.bitmap).1 = 0) (hreal : IsPage real) (hne : real ≠ frame)
    (hv : v < word32) (hp : (entryAt s.mem (pdt + 4 * pdIndex v)).present = true)
    (h0 : (entryAt s.mem (pdt + 4 * pdIndex v)).frame = 0) (hpage : v / 4096 ≠ virt / 4096)
    (hpend : LostAt s.mem pdt v frame ∨
      (entryAt s.mem (pdt + 4 * pdIndex virt)).present = false) : LostAt s'.mem pdt v frame := by
  intro e he
  by_cases hi : pdIndex v = pdIndex virt
  · rw [h.pageOf_beside hi hpage] at he
    rcases hpend with hlost | habsent
    · exact hlost e he
    · rw [← hi, hp] at habsent
      cases habsent
  · by_cases ht0 : tableFor s pdt virt = 0
    · obtain ⟨-, hep, hslot⟩ := pageOf_eq_some.mp he
      rw [h.set.other _ (pdIndex_lt hv) hi, h0] at hslot
      by_cases hj : ptIndex v = ptIndex virt
      · obtain ⟨e', he'⟩ := h.set.mapped
        rw [hj] at hslot
        rw [ht0, hslot] at he'
        rw [he', PageEntry.frame_mapTo _ _ _ hreal]
        exact hne
      · have hpages := h.set.pages _ (ptIndex_lt v) hj
        rw [ht0, hslot] at hpages
        cases hpres : (entryAt s.mem (pdt + 4 * pdIndex virt)).present with
        | true =>
          rw [if_pos hpres] at hpages
          have hlost := hpend.resolve_right (by simp [hpres])
          refine hlost e (pageOf_eq_some.mpr ⟨hp, hep, ?_⟩)
          rw [h0]
          exact hpages.symm
        | false =>
          rw [if_neg (by simp [hpres])] at hpages
          rw [hpages] at hep
          cases hep
    · rw [h.pageOf_other ht hv hi fun _ => .inr ht0] at he
      refine hpend.resolve_right ?_ e he
      intro habsent
      exact ht0 ((tableFor_of_absent habsent).trans hfull)

end Lost

/-! ### The allocation -/

/-- There are `pages` unmapped pages somewhere between `kernel_end` and the last address. -/
def GapAbove (s : Mmu) (pages : ℕ) : Prop :=
  ∃ x, x % 4096 = 0 ∧ s.kernelEnd ≤ x ∧ x + pages * 4096 ≤ word32 ∧
    rangeUnmapped s.mem s.currentPdt x pages = true

section Alloc
variable {s s' : Mmu} {pages a : ℕ}

theorem GapAbove.first (h : GapAbove s pages) (hpages : 1 ≤ pages) (hend : s.kernelEnd % 4096 = 0)
    (ha : FirstGap s pages a) : a % 4096 = 0 ∧ s.kernelEnd ≤ a ∧ a + pages * 4096 ≤ word32 := by
  obtain ⟨x, hxa, hle, htop, hgap⟩ := h
  have hx : x < word32 := by omega
  obtain ⟨a', n, hfirst, rfl, hn⟩ := exists_firstGap hend hx hxa hgap
  obtain rfl := firstGap_unique ha hfirst
  have hn := hn hle
  have hsame : (s.kernelEnd + n * bitmapPageSize) % word32 = s.kernelEnd + n * bitmapPageSize :=
    Nat.mod_eq_of_lt (by omega)
  rw [hsame]
  simp only [bitmapPageSize] at *
  omega

section Results
variable (hend : s.kernelEnd % 4096 = 0) (hlt : s.kernelEnd < word32)
include hend hlt

end Results

theorem FirstGap.page (h : FirstGap s pages a) (hend : s.kernelEnd % 4096 = 0) :
    a < word32 ∧ a % 4096 = 0 ∧ rangeUnmapped s.mem s.currentPdt a pages = true := by
  obtain ⟨n, rfl, hgap, -⟩ := h
  refine ⟨Nat.mod_lt _ (by decide), ?_, hgap⟩
  simp only [bitmapPageSize, word32]
  omega

end Alloc

end DosKernel
