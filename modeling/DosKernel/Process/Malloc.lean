import DosKernel.Heap.Complete
import DosKernel.Process.Conservation

/-! When `malloc` returns memory. A heap without room gets a new block whose number of
pages is chosen from the size alone; its header and its marks take a sixteenth of it and
32 bytes. `malloc` does not look at what `mmu_alloc_pages` returned, and a block at `NULL`
makes the list of blocks empty. -/

namespace DosKernel

/-- `malloc(size)` asks `mmu_alloc_pages` for `pages` pages. -/
structure Requests (k : Kernel) (size pages : ℕ) : Prop where
  size_ne : size ≠ 0
  full : (heapAlloc k.peek k.heap (max size minMallocSize)).1 = 0
  pages_eq : growPages (max size minMallocSize) 4 256 = pages
  pages_lt : pages < 4096

section Requests
variable {k : Kernel} {size pages : ℕ}

theorem Requests.malloc_eq (h : Requests k size pages) {a : ℕ} {m : Mmu}
    (halloc : mmuAllocPages k.mmu pages = some (a, m)) :
    malloc k size =
      let rest := (heapAlloc k.peek k.heap (max size minMallocSize)).2
      let r := heapAlloc { k with mmu := m, heap := rest }.peek
        (heapAddBlock rest a (pages * bitmapPageSize) 16) (max size minMallocSize)
      some (r.1, { k with mmu := m, heap := r.2 }) := by
  have hlt := h.pages_lt
  rw [malloc, if_neg h.size_ne]
  simp only [h.full, if_true]
  unfold mallocGrow
  simp only [h.pages_eq, if_neg (Nat.not_le.mpr hlt), halloc, Option.map_some]

/-- `heap_add_block` writes the header at address 0 and makes it the first block. -/
theorem Requests.malloc_null (h : Requests k size pages) {m : Mmu}
    (hnull : mmuAllocPages k.mmu pages = some (0, m)) :
    malloc k size = some (0, { k with mmu := m, heap := [] }) := by
  rw [h.malloc_eq hnull]
  simp only [heapAddBlock, if_true, heapAlloc]

end Requests

/-! ### No memory -/

/-- When the pages could not be allocated `malloc` returns `NULL`, and the heap is what it
was exactly if it had no block. -/
theorem malloc_null_keeps_heap_iff {k : Kernel} {size pages : ℕ} {m : Mmu}
    (hreq : Requests k size pages) (hnull : mmuAllocPages k.mmu pages = some (0, m)) :
    (∃ k', malloc k size = some (0, k') ∧ k'.heap = k.heap) ↔ k.heap = [] := by
  rw [hreq.malloc_null hnull]
  constructor
  · rintro ⟨k', heq, hheap⟩
    obtain ⟨-, rfl⟩ := Prod.mk.inj (Option.some.inj heq)
    exact hheap.symm
  · intro hnil
    exact ⟨_, rfl, hnil.symm⟩

theorem mmuIsMapped_zero (pdt v : ℕ) : mmuIsMapped (fun _ => 0) pdt v = false := rfl

/-- With nothing mapped the pages begin at the end of the kernel. -/
theorem mmuAllocPages_zero {b : Bitmap} {kernelEnd kernelPdt pdt : ℕ} (pages : ℕ)
    (hpos : 0 < kernelEnd) (hlt : kernelEnd < 0xFFFFFFFF) :
    (mmuAllocPages ⟨fun _ => 0, b, kernelEnd, kernelPdt, pdt⟩ pages).map Prod.fst =
      some (if (bitmapAllocContiguousPages b pages).1 = 0 then 0 else kernelEnd) := by
  have hrange : rangeUnmapped (fun _ => 0) pdt kernelEnd pages = true :=
    List.all_eq_true.mpr fun i _ => by rw [mmuIsMapped_zero]; rfl
  have hsearch : searchPages (fun _ => 0) pdt pages 1048576 kernelEnd = some kernelEnd := by
    rw [searchPages, if_pos hlt, if_pos hrange]
  simp only [mmuAllocPages, hsearch, Option.map_some, if_neg hpos.ne']
  split_ifs <;> rfl

/-- 64 frames are free. -/
theorem twoProcesses_no_pages (heap : Heap) :
    ∃ m, mmuAllocPages { twoProcesses with heap := heap }.mmu 256 = some (0, m) := by
  have hnone : (bitmapAllocContiguousPages twoProcesses.mmu.bitmap 256).1 = 0 := by decide +kernel
  have hnull : (mmuAllocPages twoProcesses.mmu 256).map Prod.fst = some 0 :=
    (mmuAllocPages_zero 256 (by decide) (by decide)).trans (congrArg some (if_pos hnone))
  obtain ⟨⟨a, m⟩, halloc, rfl⟩ := Option.map_eq_some_iff.mp hnull
  exact ⟨m, halloc⟩

theorem malloc_null_keeps_empty_heap :
    ∃ m, Requests twoProcesses 100 256 ∧ mmuAllocPages twoProcesses.mmu 256 = some (0, m) ∧
      ∃ k', malloc twoProcesses 100 = some (0, k') ∧ k'.heap = twoProcesses.heap := by
  obtain ⟨m, hnull⟩ := twoProcesses_no_pages []
  have hreq : Requests twoProcesses 100 256 :=
    ⟨by decide, by decide +kernel, by decide +kernel, by decide⟩
  exact ⟨m, hreq, hnull, (malloc_null_keeps_heap_iff hreq hnull).mpr rfl⟩

theorem malloc_null_loses_heap : ¬ ∀ (k : Kernel) (size pages : ℕ) (m : Mmu),
    Requests k size pages → mmuAllocPages k.mmu pages = some (0, m) →
      ∃ k', malloc k size = some (0, k') ∧ k'.heap = k.heap := by
  intro h
  obtain ⟨m, hnull⟩ := twoProcesses_no_pages emptyPage
  have hreq : Requests { twoProcesses with heap := emptyPage } 5000 256 :=
    ⟨by decide, by decide +kernel, by decide +kernel, by decide⟩
  obtain ⟨k', hmalloc, hheap⟩ := h _ 5000 256 m hreq hnull
  rw [hreq.malloc_null hnull] at hmalloc
  obtain ⟨-, rfl⟩ := Prod.mk.inj (Option.some.inj hmalloc)
  have hlength : emptyPage.length = 1 := by decide +kernel
  have hnil : [] = emptyPage := hheap
  rw [← hnil] at hlength
  cases hlength

/-! ### A new block -/

section New
variable {hb : HeapBlock} {addr size pages n x : ℕ} {peek : ℕ → UInt8}

theorem HeapBlock.New.freeAt_iff (h : hb.New addr size) (hn : 1 ≤ n) :
    hb.FreeAt n x ↔ hb.reserved ≤ x ∧ x + n ≤ hb.blockCount := by
  have hfree : ∀ i, hb.marks i = 0 ↔ hb.reserved ≤ i := fun i => by
    rw [← not_iff_not, ← ne_eq, h.marks_ne_iff, not_le]
  simp only [HeapBlock.FreeAt, hfree]
  constructor
  · intro hall
    have hfirst := hall 0 (by omega)
    have hlast := hall (n - 1) (by omega)
    omega
  · intro hroom i hi
    omega

/-- The pages of a new block less the header, the marks and the cells that are not whole. -/
theorem HeapBlock.New.room_iff (h : hb.New addr (pages * bitmapPageSize)) (hpages : 1 ≤ pages) :
    hb.reserved + divUp n 16 ≤ hb.blockCount ↔ n + 32 ≤ 3840 * pages := by
  rw [h.reserved_eq, h.blockCount_eq, divUp_sixteen, bitmapPageSize]
  omega

/-- Cells are 4 bytes behind a multiple of 16. -/
theorem heapAllocBlock_ne_zero (haligned : hb.base % 16 = 0) (hblock : hb.blockSize = 16)
    {r : ℕ × HeapBlock} (h : heapAllocBlock peek hb n = some r) : r.1 ≠ 0 := by
  rw [heapAllocBlock, hblock] at h
  dsimp only at h
  split at h
  · cases h
  split at h
  · cases h
  next x _ =>
    obtain rfl := Option.some.inj h
    simp only [sizeofHeapBlock, word32]
    omega

/-- The retry of `malloc` finds room exactly if the new block has it. -/
theorem HeapBlock.New.heapAlloc_ne_zero_iff (h : hb.New addr (pages * bitmapPageSize))
    (hpages : 1 ≤ pages) (hlt : pages < 4096) (haligned : addr % 16 = 0) {rest : Heap}
    (hrest : (heapAlloc peek rest n).1 = 0) (hn : 1 ≤ n) :
    (heapAlloc peek (hb :: rest) n).1 ≠ 0 ↔ n + 32 ≤ 3840 * pages := by
  have hreserved := h.reserved_eq
  have hlfb := h.lfb_eq
  have hcells : 1 ≤ divUp n 16 := by rw [divUp_sixteen]; omega
  have hsize : hb.size < word32 := by
    rw [h.size_eq, bitmapPageSize, word32]
    omega
  have hnone : heapAllocBlock peek hb n = none ↔ ∀ x, hb.FreeAt (divUp n 16) x → x = hb.lfb :=
    heapAllocBlock_eq_none_iff h.blockSize_eq hsize ((h.marks_ne_iff 0).mpr (by omega))
      h.used_taken hn
  have hroom : heapAllocBlock peek hb n = none ↔ ¬ n + 32 ≤ 3840 * pages := by
    rw [hnone, ← h.room_iff hpages]
    simp only [h.freeAt_iff hcells]
    constructor
    · intro hall hle
      have := hall hb.reserved ⟨le_rfl, hle⟩
      omega
    · intro hle x hx
      omega
  unfold heapAlloc
  cases hblock : heapAllocBlock peek hb n with
  | none =>
    simp only [Option.elim_none, hrest]
    exact iff_of_false (fun h => h rfl) (hroom.mp hblock)
  | some r =>
    rw [Option.elim_some]
    refine iff_of_true (heapAllocBlock_ne_zero (h.base_eq ▸ haligned) h.blockSize_eq hblock) ?_
    by_contra hfull
    rw [hroom.mpr hfull] at hblock
    cases hblock

end New

/-! ### The pages of a new block -/

/-- The sizes up to 8 MiB that fit into a block of the pages `malloc` allocates for them. -/
def NewBlockFits (size : ℕ) : Prop :=
  size ≤ 983008 ∨ 1048576 < size ∧ size ≤ 1966048 ∨ 2097152 < size ∧ size ≤ 3932128 ∨
    4194304 < size ∧ size ≤ 7864288

theorem growPages_eq {size : ℕ} (hle : size ≤ 8388608) : growPages size 4 256 =
    if size ≤ 1048576 then 256 else if size ≤ 2097152 then 512 else if size ≤ 4194304 then 1024
      else 2048 := by
  have hlast : ¬ 8388608 < size := by omega
  simp only [growPages, bitmapPageSize, Nat.reduceMul, Nat.reduceLT, and_true, ← not_lt, ite_not,
    hlast, if_false]

theorem newBlockFits_iff {size : ℕ} (hle : size ≤ 8388608) :
    NewBlockFits size ↔ max size minMallocSize + 32 ≤
      3840 * growPages (max size minMallocSize) 4 256 := by
  rw [minMallocSize, growPages_eq (by omega), NewBlockFits]
  split_ifs <;> omega

section Grow
variable {s : HeapState} {k : Kernel} {size : ℕ}

theorem heapAlloc_unchanged {peek : ℕ → UInt8} (hkept : HeapKept s) (hsize : 1 ≤ size)
    (hnull : (heapAlloc peek s.heap size).1 = 0) : (heapAlloc peek s.heap size).2 = s.heap := by
  obtain ⟨held, hm, -⟩ := hkept
  rcases hm.heapAlloc_spec peek hsize with h0 | ⟨l, hb, r, hb', x, v, p, hheap, heq, -, hne, -⟩
  · exact (congrArg Prod.snd h0 :)
  · exact absurd ((congrArg Prod.fst heq).symm.trans hnull) hne

/-- `malloc` behind a heap without room. -/
theorem Requests.malloc_ne_zero_iff {pages a : ℕ} {m : Mmu} (hreq : Requests k size pages)
    (hkept : HeapKept s) (hk : k.heap = s.heap) (hend : k.mmu.kernelEnd % 4096 = 0)
    (hle : size ≤ 8388608) (ha : a ≠ 0) (halloc : mmuAllocPages k.mmu pages = some (a, m)) :
    (∃ p k', malloc k size = some (p, k') ∧ p ≠ 0) ↔ NewBlockFits size := by
  have haligned := mmuAllocPages_aligned hend halloc
  have hsize : 1 ≤ max size minMallocSize := by rw [minMallocSize]; omega
  have hpages : 1 ≤ pages := by
    rw [← hreq.pages_eq, growPages_eq (by rw [minMallocSize]; omega)]
    split_ifs <;> omega
  have hrest := hreq.full
  rw [hk] at hrest
  have hsame := heapAlloc_unchanged hkept hsize hrest
  rw [hreq.malloc_eq halloc, newBlockFits_iff hle, hreq.pages_eq]
  dsimp only
  rw [hk, hsame]
  have hlt := hreq.pages_lt
  obtain ⟨hb, hadd, hnew⟩ := heapAddBlock_eq s.heap ha
    (show 4096 ≤ pages * bitmapPageSize by rw [bitmapPageSize]; omega)
    (by rw [bitmapPageSize, word32]; omega)
  rw [hadd]
  have hfull : ∀ peek, (heapAlloc peek s.heap (max size minMallocSize)).1 = 0 := fun peek =>
    (hkept.alloc_eq_zero_iff peek hsize).mpr ((hkept.alloc_eq_zero_iff k.peek hsize).mp hrest)
  rw [← hnew.heapAlloc_ne_zero_iff hpages hlt (by omega) (hfull _) hsize]
  constructor
  · rintro ⟨p, k', heq, hp⟩
    obtain ⟨rfl, -⟩ := Prod.mk.inj (Option.some.inj heq)
    exact hp
  · intro hp
    exact ⟨_, _, rfl, hp⟩

/-- `malloc` of a size up to 8 MiB that gets its pages returns memory exactly if the heap
had room for it, or the new block has. -/
theorem malloc_grows_iff {ops : List HeapOp}
    (hrun : Lib.Run heapStep Lib.Anything { heap := heapInit, live := [] } ops s)
    (hk : k.heap = s.heap) (hend : k.mmu.kernelEnd % 4096 = 0) (hpos : 1 ≤ size)
    (hle : size ≤ 8388608) (hpages : ∀ pages, Requests k size pages →
      ∃ a m, a ≠ 0 ∧ mmuAllocPages k.mmu pages = some (a, m)) :
    (∃ p k', malloc k size = some (p, k') ∧ p ≠ 0) ↔
      (∃ hb ∈ k.heap, ∃ x, hb.FreeAt (divUp (max size minMallocSize) 16) x ∧ x ≠ hb.lfb) ∨
        NewBlockFits size := by
  have hkept := heapKept_of_run hrun
  have hzero := hkept.alloc_eq_zero_iff k.peek
    (show 1 ≤ max size minMallocSize by rw [minMallocSize]; omega)
  rw [← hk] at hzero
  by_cases hfull : (heapAlloc k.peek k.heap (max size minMallocSize)).1 = 0
  · have hlt : growPages (max size minMallocSize) 4 256 < 4096 := by
      rw [growPages_eq (by rw [minMallocSize]; omega)]
      split_ifs <;> omega
    have hreq : Requests k size _ := ⟨by omega, hfull, rfl, hlt⟩
    obtain ⟨a, m, ha, halloc⟩ := hpages _ hreq
    rw [hreq.malloc_ne_zero_iff hkept hk hend hle ha halloc, iff_or_self]
    rintro ⟨hb, hmem, x, hfree, hne⟩
    exact absurd (hzero.mp hfull hb hmem x hfree) hne
  · refine iff_of_true ?_ (.inl ?_)
    · rw [malloc, if_neg (by omega)]
      simp only [if_neg hfull]
      exact ⟨_, _, rfl, hfull⟩
    · rw [hzero] at hfull
      push Not at hfull
      exact hfull

end Grow

/-- `twoProcesses` with 2048 free frames. -/
def freshKernel : Kernel := { twoProcesses with
  mmu := { twoProcesses.mmu with bitmap := ⟨0x400000, 2048, fun _ => 0⟩ } }

theorem freshKernel_pages : ∃ a m, a ≠ 0 ∧ mmuAllocPages freshKernel.mmu 256 = some (a, m) := by
  have hsome : ¬ (bitmapAllocContiguousPages freshKernel.mmu.bitmap 256).1 = 0 := by decide +kernel
  have halloc : (mmuAllocPages freshKernel.mmu 256).map Prod.fst = some 0xc0400000 :=
    (mmuAllocPages_zero 256 (by decide) (by decide)).trans (congrArg some (if_neg hsome))
  obtain ⟨⟨a, m⟩, halloc, rfl⟩ := Option.map_eq_some_iff.mp halloc
  exact ⟨_, m, by decide, halloc⟩

theorem malloc_grows_hundred : NewBlockFits 100 ∧
    ∃ p k', malloc freshKernel 100 = some (p, k') ∧ p ≠ 0 := by
  have hfits : NewBlockFits 100 := .inl (by decide)
  refine ⟨hfits, (malloc_grows_iff (.nil _) rfl (by decide) (by decide) (by decide) ?_).mpr
    (.inr hfits)⟩
  intro pages hreq
  obtain rfl : 256 = pages := hreq.pages_eq
  exact freshKernel_pages

/-- 256 pages are allocated for one MiB, and the header and the marks of the new block
leave less. -/
theorem malloc_mebibyte_fails : ¬ ∀ (ops : List HeapOp) (s : HeapState),
    Lib.Run heapStep Lib.Anything { heap := heapInit, live := [] } ops s →
    ∀ (k : Kernel) (size : ℕ), k.heap = s.heap → k.mmu.kernelEnd % 4096 = 0 → 1 ≤ size →
      size ≤ 8388608 →
      (∀ pages, Requests k size pages →
        ∃ a m, a ≠ 0 ∧ mmuAllocPages k.mmu pages = some (a, m)) →
      ∃ p k', malloc k size = some (p, k') ∧ p ≠ 0 := by
  intro h
  obtain ⟨a, m, ha, halloc⟩ := freshKernel_pages
  have hreq : Requests freshKernel 1048576 256 :=
    ⟨by decide, rfl, by decide +kernel, by decide⟩
  have hex := h [] _ (.nil _) freshKernel 1048576 rfl (by decide) (by decide) (by decide)
    fun pages hpages => by
      obtain rfl : 256 = pages := hreq.pages_eq.symm.trans hpages.pages_eq
      exact ⟨a, m, ha, halloc⟩
  rw [hreq.malloc_ne_zero_iff (heapKept_of_run (.nil _)) rfl (by decide) (by decide) ha halloc,
    NewBlockFits] at hex
  omega

end DosKernel
