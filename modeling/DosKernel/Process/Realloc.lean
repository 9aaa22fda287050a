import DosKernel.Process.Malloc

/-! What `realloc` keeps of the data. The size of an allocation is not stored, and
`heap_allocated_size` gives the bytes that are left in the cell of its argument: 16 for
every pointer that `malloc` returned, and 0 when no block owns the pointer. -/

namespace DosKernel

open Lib

/-- The arithmetic of `heap_allocated_size` in the block that owns the address. -/
def HeapBlock.bytesLeft (hb : HeapBlock) (addr : ℕ) : ℕ :=
  let x := (addr + word32 - (hb.base + sizeofHeapBlock)) % word32
  let x := x / hb.blockSize
  let x := x * hb.blockSize % word32
  let x := (x + hb.base + sizeofHeapBlock) % word32
  let x := (addr + word32 - x) % word32
  (hb.blockSize + word32 - x) % word32

def heapAllocatedSize (this : Heap) (addr : ℕ) : ℕ :=
  if addr = 0 then 0 else (this.find? (·.owns addr)).elim 0 (·.bytesLeft addr)

/-- `realloc`. `mem` are the bytes of the virtual memory of the kernel but for the headers
and the marks of the blocks, which the heap holds. -/
def realloc (k : Kernel) (mem : Memory) (ptr size : ℕ) : Option (ℕ × Kernel × Memory) :=
  if size = 0 then some (0, k, mem)
  else
    (malloc k size).map fun r =>
      if r.1 = 0 then (0, r.2, mem)
      else (r.1, free r.2 ptr, mem.copy r.1 ptr (min size (heapAllocatedSize r.2.heap ptr)))

/-! ### The pages of a new block -/

/-- The kernel can reach its heap: the pages of the blocks are mapped, and so is the page
at 0, which `mmu_init` maps. -/
structure Backed (k : Kernel) : Prop where
  kernelEnd_aligned : k.mmu.kernelEnd % 4096 = 0
  zero_mapped : mmuIsMapped k.mmu.mem k.mmu.currentPdt 0 = true
  block_mapped : ∀ hb ∈ k.heap, ∀ v, hb.base ≤ v → v < hb.base + sizeofHeapBlock + hb.size →
    mmuIsMapped k.mmu.mem k.mmu.currentPdt v = true

section Pages
variable {s s' : Mmu} {m : Memory} {pdt pages a v : ℕ}

/-- Whether an address is mapped depends on its page. -/
theorem mmuIsMapped_page {w : ℕ} (h : v / 4096 = w / 4096) :
    mmuIsMapped m pdt v = mmuIsMapped m pdt w := by
  have hpd : pdIndex v = pdIndex w := by
    simp only [pdIndex]
    omega
  have hpt : ptIndex v = ptIndex w := by
    simp only [ptIndex, h]
  simp only [mmuIsMapped, pageOf, hpd, hpt]

theorem searchPages_unmapped (fuel : ℕ) : ∀ {addr : ℕ},
    searchPages m pdt pages fuel addr = some a → a ≠ 0 →
      rangeUnmapped m pdt a pages = true ∧ a < word32 := by
  induction fuel with
  | zero => intro addr h _; cases h
  | succ fuel ih =>
    intro addr h ha
    rw [searchPages] at h
    split_ifs at h with hlt hrange
    · obtain rfl := Option.some.inj h
      exact ⟨hrange, by rw [word32]; omega⟩
    · exact ih h ha
    · exact absurd (Option.some.inj h).symm ha

/-- The pages that `mmu_alloc_pages` returns were not mapped. -/
theorem mmuAllocPages_unmapped (h : mmuAllocPages s pages = some (a, s')) (ha : a ≠ 0) :
    (∀ i < pages, mmuIsMapped s.mem s.currentPdt ((a + i * 4096) % word32) = false) ∧
      a < word32 := by
  obtain ⟨start, hstart, heq⟩ := Option.map_eq_some_iff.mp h
  dsimp only at heq
  split_ifs at heq
  · exact absurd (Prod.mk.inj heq).1.symm ha
  · exact absurd (Prod.mk.inj heq).1.symm ha
  · obtain ⟨rfl, -⟩ := Prod.mk.inj heq
    obtain ⟨hrange, hlt⟩ := searchPages_unmapped _ hstart ha
    refine ⟨fun i hi => ?_, hlt⟩
    rw [rangeUnmapped, List.all_eq_true] at hrange
    simpa [bitmapPageSize] using hrange i (List.mem_range.mpr hi)

/-- They do not run over the end of the address space, and no block lies in them. -/
theorem Backed.region {k : Kernel} (hk : Backed k) (hpages : 1 ≤ pages)
    (h : mmuAllocPages k.mmu pages = some (a, s')) (ha : a ≠ 0) :
    a + pages * bitmapPageSize ≤ word32 ∧
      ∀ hb ∈ k.heap, hb.Made → regionApart a (pages * bitmapPageSize) hb = true := by
  have haligned := mmuAllocPages_aligned hk.kernelEnd_aligned h
  obtain ⟨hfree, hlt⟩ := mmuAllocPages_unmapped h ha
  have htop : a + pages * bitmapPageSize ≤ word32 := by
    by_contra hover
    rw [bitmapPageSize, word32] at *
    have hzero := hfree ((4294967296 - a) / 4096) (by omega)
    rw [show (a + (4294967296 - a) / 4096 * 4096) % 4294967296 = 0 by omega, hk.zero_mapped]
      at hzero
    cases hzero
  refine ⟨htop, fun hb hmem hmade => ?_⟩
  by_contra hover
  simp only [regionApart, Bool.or_eq_true, decide_eq_true_eq, not_or, not_le] at hover
  have hpage := hmade.page
  -- the first address that is in both
  obtain ⟨v, hin, hin', hv, hv'⟩ : ∃ v, a ≤ v ∧ v < a + pages * bitmapPageSize ∧ hb.base ≤ v ∧
      v < hb.base + sizeofHeapBlock + hb.size := by
    refine ⟨max a hb.base, ?_⟩
    rw [bitmapPageSize, sizeofHeapBlock] at *
    omega
  rw [bitmapPageSize, word32] at *
  have hunmapped := hfree ((v - a) / 4096) (by omega)
  have hsame : (a + (v - a) / 4096 * 4096) % 4294967296 / 4096 = v / 4096 := by omega
  rw [mmuIsMapped_page hsame, hk.block_mapped hb hmem v hv hv'] at hunmapped
  cases hunmapped

end Pages

/-! ### `malloc` -/

section Malloc
variable {k k' : Kernel} {held : List Alloc} {size q : ℕ}

/-- A block that `heap_alloc` has given marks owns the same addresses. -/
theorem HeapBlock.Remark.owns_eq {hb hb' : HeapBlock} {x n : ℕ} {v : UInt8}
    (h : hb.Remark hb' x n v) (addr : ℕ) : hb'.owns addr = hb.owns addr := by
  simp only [HeapBlock.owns, h.base_eq, h.size_eq]

/-- A pointer that `heap_alloc` returned is a new allocation, and the blocks stay where
they are. -/
theorem HeapMarks.heapAlloc_kept {s : HeapState} (hm : HeapMarks s) (peek : ℕ → UInt8)
    (hsize : 1 ≤ size) (hq : (heapAlloc peek s.heap size).1 ≠ 0) :
    HeapMarks ⟨(heapAlloc peek s.heap size).2, ⟨(heapAlloc peek s.heap size).1, size⟩ :: s.live⟩ ∧
      ∀ addr, (heapAlloc peek s.heap size).2.any (·.owns addr) = s.heap.any (·.owns addr) := by
  rcases hm.heapAlloc_spec peek hsize with h0 | ⟨l, hb, r, hb', x, v, p, hheap, heq, hr, -, hm'⟩
  · rw [h0] at hq
    exact absurd rfl hq
  · rw [heq]
    refine ⟨hm', fun addr => ?_⟩
    rw [hheap]
    simp only [List.any_append, List.any_cons, hr.owns_eq]

structure HeapBlock.Empty (hb : HeapBlock) : Prop where
  marks_ne_iff : ∀ i, hb.marks i ≠ 0 ↔ i < hb.reserved
  used_eq : hb.used = hb.reserved

/-- The memory that `malloc` returns is found in the heap as it was or behind a new block. -/
theorem malloc_found (hm : HeapMarks ⟨k.heap, held⟩) (hk : Backed k)
    (h : malloc k size = some (q, k')) (hq : q ≠ 0) : ∃ added peek,
      (∀ hb ∈ added, hb.Empty) ∧ HeapMarks ⟨added ++ k.heap, held⟩ ∧
        heapAlloc peek (added ++ k.heap) (max size minMallocSize) = (q, k'.heap) := by
  have hsize : 1 ≤ max size minMallocSize := by rw [minMallocSize]; omega
  cases malloc_cases h with
  | nothing => exact absurd rfl hq
  | found => exact ⟨[], k.peek, by simp, hm, by rw [List.nil_append]⟩
  | large => exact absurd rfl hq
  | @grown _ hfull pages hpages _ a m halloc peek heap hblock =>
    have hsame : (heapAlloc k.peek k.heap (max size minMallocSize)).2 = k.heap :=
      heapAlloc_unchanged (s := ⟨k.heap, held⟩) ⟨held, hm, List.Subperm.refl held⟩ hsize hfull
    have hle := le_growPages (max size minMallocSize) 4 256
    rw [hsame] at hblock
    have ha : a ≠ 0 := by
      rintro rfl
      rw [← hblock] at hq
      exact hq rfl
    obtain ⟨htop, hapart⟩ := hk.region (by omega) halloc ha
    have hadd := hm.addBlock ha (by rw [bitmapPageSize]; omega) htop
      fun hb hmem => hapart hb hmem (hm.made hb hmem)
    obtain ⟨hb, heq, hnew⟩ := heapAddBlock_eq k.heap ha
      (show 4096 ≤ pages * bitmapPageSize by rw [bitmapPageSize]; omega)
      (by rw [bitmapPageSize, word32] at *; omega)
    rw [heq] at hadd hblock
    refine ⟨[hb], peek, fun b hmem => ?_, hadd, ?_⟩
    · rw [List.mem_singleton.mp hmem]
      exact ⟨hnew.marks_ne_iff, hnew.used_eq⟩
    · rw [List.singleton_append, hblock, Prod.mk.eta]

/-- A pointer that `malloc` returned is a new allocation, and whether a block owns another
one is as before. -/
theorem malloc_spec (hm : HeapMarks ⟨k.heap, held⟩) (hk : Backed k)
    (h : malloc k size = some (q, k')) (hq : q ≠ 0) :
    HeapMarks ⟨k'.heap, ⟨q, max size minMallocSize⟩ :: held⟩ ∧
      ∀ a ∈ held, k'.heap.any (·.owns a.ptr) = k.heap.any (·.owns a.ptr) := by
  obtain ⟨added, peek, -, hadd, halloc⟩ := malloc_found hm hk h hq
  have hkept := hadd.heapAlloc_kept peek (show 1 ≤ max size minMallocSize by
    rw [minMallocSize]; omega) (by rw [halloc]; exact hq)
  rw [halloc] at hkept
  refine ⟨hkept.1, fun c hc => (hkept.2 c.ptr).trans ?_⟩
  obtain ⟨j, hj, x, hx⟩ := hm.placed c hc
  have hnot : ∀ hb ∈ added, hb.owns c.ptr = false := fun hb hmem =>
    hx.not_owns (hm.made j hj) ((List.pairwise_append.mp hadd.apart).2.2 hb hmem j hj).symm
  rw [List.any_append, List.any_eq_false.mpr (by simpa using hnot), Bool.false_or]

end Malloc

/-! ### `heap_allocated_size` -/

section AllocatedSize
variable {s : HeapState} {a : Alloc}

/-- An allocation starts at the start of a cell. -/
theorem HeapBlock.Holds.bytesLeft {hb : HeapBlock} {x : ℕ} (h : hb.Holds a x) (hmade : hb.Made) :
    hb.bytesLeft a.ptr = 16 := by
  have htop := hmade.cell_top h.inside
  have hpos := h.cells_pos
  have hend := hmade.top
  rw [hmade.cell_eq] at htop
  simp only [HeapBlock.bytesLeft, hmade.blockSize_eq, h.ptr_eq, hmade.cell_eq, sizeofHeapBlock,
    word32] at *
  omega

theorem HeapMarks.heapAllocatedSize_eq (hs : HeapMarks s) (ha : a ∈ s.live) :
    heapAllocatedSize s.heap a.ptr = if s.heap.any (·.owns a.ptr) then 16 else 0 := by
  obtain ⟨hb, hmem, x, hx⟩ := hs.placed a ha
  have hmade := hs.made hb hmem
  have hne : a.ptr ≠ 0 := by
    rw [hx.ptr_eq, hmade.cell_eq]
    omega
  rw [heapAllocatedSize, if_neg hne]
  cases hfind : s.heap.find? (·.owns a.ptr) with
  | none =>
    have hany : ¬ s.heap.any (·.owns a.ptr) = true := by
      rw [List.find?_eq_none] at hfind
      simpa using hfind
    rw [if_neg hany, Option.elim_none]
  | some j =>
    have hj := List.mem_of_find?_eq_some hfind
    have howns := List.find?_some (p := fun k : HeapBlock => k.owns a.ptr) hfind
    have hany : s.heap.any (·.owns a.ptr) = true := List.any_eq_true.mpr ⟨j, hj, howns⟩
    -- no other block owns the pointer
    have heq : j = hb := by
      by_contra hjne
      have hapart : hb.Apart j := hs.apart.forall hmem hj (Ne.symm hjne)
      rw [hx.not_owns hmade hapart] at howns
      cases howns
    rw [if_pos hany, heq, Option.elim_some, hx.bytesLeft hmade]

theorem HeapMarks.top_le (hs : HeapMarks s) (ha : a ∈ s.live) :
    a.ptr + 16 * a.cells ≤ word32 := by
  obtain ⟨hb, hmem, x, hx⟩ := hs.placed a ha
  have hmade := hs.made hb hmem
  have htop := hmade.cell_top hx.inside
  have hend := hmade.top
  rw [hmade.cell_eq] at htop
  rw [hx.ptr_eq, hmade.cell_eq]
  omega

theorem HeapMarks.cells_pos (hs : HeapMarks s) (ha : a ∈ s.live) : 1 ≤ a.cells := by
  obtain ⟨hb, -, x, hx⟩ := hs.placed a ha
  exact hx.cells_pos

end AllocatedSize

/-! ### What is kept -/

/-- What the `realloc` of `a` to `size` bytes at `q` has to do: the first `n` bytes are those
of `a`, the other live allocations keep their bytes, and the heap holds them and the new
one. -/
structure ReallocKeeps (live : List Alloc) (a : Alloc) (size n q : ℕ) (k' : Kernel)
    (mem mem' : Memory) : Prop where
  copied : ∀ i < n, mem' (q + i) = mem (a.ptr + i)
  others : ∀ c ∈ live.erase a, ∀ i < c.size, mem' (c.ptr + i) = mem (c.ptr + i)
  heap : HeapKept ⟨k'.heap, ⟨q, max size minMallocSize⟩ :: live.erase a⟩

section Realloc
variable {s : HeapState} {k k' k₁ : Kernel} {mem mem' : Memory} {p q size n : ℕ} {a : Alloc}

theorem realloc_eq (hsize : 1 ≤ size) (hmalloc : malloc k size = some (q, k₁)) (hq : q ≠ 0) :
    realloc k mem p size = some (q, DosKernel.free k₁ p,
      mem.copy q p (min size (heapAllocatedSize k₁.heap p))) := by
  rw [realloc, if_neg (by omega), hmalloc, Option.map_some]
  simp only [if_neg hq]

/-- What `realloc` returns does not depend on the bytes. -/
theorem realloc_fst (hsize : 1 ≤ size) :
    (realloc k mem p size).map Prod.fst = (malloc k size).map Prod.fst := by
  rw [realloc, if_neg (by omega), Option.map_map]
  congr 1
  funext r
  simp only [Function.comp_apply]
  split_ifs with hnull
  · exact hnull.symm
  · rfl

/-- Everything but the length of the copy is right. -/
theorem reallocKeeps_iff (n : ℕ) (hkept : HeapKept s) (hk : k.heap = s.heap)
    (hbacked : Backed k) (ha : a ∈ s.live) (hmalloc : malloc k size = some (q, k₁)) (hq : q ≠ 0)
    (mem : Memory) :
    ReallocKeeps s.live a size n q (DosKernel.free k₁ a.ptr) mem
        (mem.copy q a.ptr (min size (heapAllocatedSize k₁.heap a.ptr))) ↔
      ∀ i < n, mem.copy q a.ptr (min size (heapAllocatedSize k₁.heap a.ptr)) (q + i) =
        mem (a.ptr + i) := by
  obtain ⟨held, hm, hlive⟩ := hkept
  rw [← hk] at hm
  obtain ⟨hm', -⟩ := malloc_spec hm hbacked hmalloc hq
  have hapart := (List.pairwise_cons.mp hm'.disjoint).1
  have hcells : ∀ c ∈ held, 1 ≤ c.cells := fun c hc => hm.cells_pos hc
  have hnew : (⟨q, max size minMallocSize⟩ : Alloc) ∈ ⟨q, max size minMallocSize⟩ :: held :=
    List.mem_cons_self
  have htop := hm'.top_le hnew
  have hlen := Alloc.size_le ⟨q, max size minMallocSize⟩
  have hneq : (⟨q, max size minMallocSize⟩ : Alloc) ≠ a := by
    rintro rfl
    have hpos := hcells _ (hlive.subset ha)
    exact hapart _ (hlive.subset ha) q ⟨le_rfl, by dsimp only; omega⟩ ⟨le_rfl, by dsimp only; omega⟩
  refine ⟨fun h => h.copied, fun hcopied => ⟨hcopied, fun c hc i hi => ?_, ?_⟩⟩
  · have hsub := hlive.subset (List.mem_of_mem_erase hc)
    have hin := c.size_le
    have hoff : ¬ Alloc.Covers ⟨q, max size minMallocSize⟩ (c.ptr + i) := fun hcov =>
      hapart c hsub (c.ptr + i) hcov ⟨by omega, by omega⟩
    simp only [Alloc.Covers, word32] at *
    rw [Memory.copy, Memory.write_of_not_mem (by simp only [space]; omega)]
    omega
  · have hkept' : HeapKept ⟨k₁.heap, ⟨q, max size minMallocSize⟩ :: s.live⟩ :=
      ⟨_, hm', (List.subperm_cons _).mpr hlive⟩
    have hstep := hkept'.step (heapStep_free (List.mem_cons_of_mem _ ha))
    rw [List.erase_cons_tail (by simpa using hneq)] at hstep
    have hptr : a.ptr ≠ 0 := by
      obtain ⟨hb, hmem, x, hx⟩ := hm.placed a (hlive.subset ha)
      rw [hx.ptr_eq, (hm.made hb hmem).cell_eq]
      omega
    rw [DosKernel.free, if_neg hptr]
    exact hstep

/-- The size that `realloc` finds is that of one cell, or 0. -/
theorem heapAllocatedSize_of_malloc (hkept : HeapKept s) (hk : k.heap = s.heap)
    (hbacked : Backed k) (ha : a ∈ s.live) (hmalloc : malloc k size = some (q, k₁)) (hq : q ≠ 0) :
    heapAllocatedSize k₁.heap a.ptr = if k.heap.any (·.owns a.ptr) then 16 else 0 := by
  obtain ⟨held, hm, hlive⟩ := hkept
  rw [← hk] at hm
  obtain ⟨hm', howns⟩ := malloc_spec hm hbacked hmalloc hq
  rw [← howns _ (hlive.subset ha)]
  exact hm'.heapAllocatedSize_eq (List.mem_cons_of_mem _ (hlive.subset ha))

/-- A copy of at most one cell lies in both allocations. -/
theorem copy_keeps_of_malloc {len : ℕ} (hkept : HeapKept s) (hk : k.heap = s.heap)
    (hbacked : Backed k) (ha : a ∈ s.live) (hmalloc : malloc k size = some (q, k₁)) (hq : q ≠ 0)
    (hlen : len ≤ 16) :
    (∀ mem : Memory, ∀ i < n, mem.copy q a.ptr len (q + i) = mem (a.ptr + i)) ↔ n ≤ len := by
  obtain ⟨held, hm, hlive⟩ := hkept
  rw [← hk] at hm
  obtain ⟨hm', -⟩ := malloc_spec hm hbacked hmalloc hq
  have hp := hlive.subset ha
  have hp' : a ∈ ⟨q, max size minMallocSize⟩ :: held := List.mem_cons_of_mem _ hp
  have hqtop := hm'.top_le (a := ⟨q, max size minMallocSize⟩) List.mem_cons_self
  have hqpos := hm'.cells_pos (a := ⟨q, max size minMallocSize⟩) List.mem_cons_self
  have hptop := hm'.top_le hp'
  have hppos := hm'.cells_pos hp'
  have hne : q ≠ a.ptr := fun heq => (List.pairwise_cons.mp hm'.disjoint).1 _ hp q
    ⟨le_rfl, by dsimp only; omega⟩ ⟨heq.ge, by omega⟩
  dsimp only at hqtop
  simp only [word32] at hqtop hptop
  exact Memory.copy_keeps_iff (show q + len ≤ space by rw [space]; omega)
    (show a.ptr + len ≤ space by rw [space]; omega) hne

/-- A `realloc` that returns memory keeps the data exactly if no more than one cell is to be
kept and a block owns the pointer: the last block of the address space owns none. -/
theorem realloc_keeps_iff {ops : List HeapOp} {old new : ℕ}
    (hrun : Run heapStep Anything { heap := heapInit, live := [] } ops s) (hk : k.heap = s.heap)
    (hbacked : Backed k) (hold : 1 ≤ old) (hnew : 1 ≤ new)
    (hlive : ⟨p, max old minMallocSize⟩ ∈ s.live)
    (hret : ∀ mem, (realloc k mem p new).map Prod.fst = some q) (hq : q ≠ 0) :
    (∀ mem k' mem', realloc k mem p new = some (q, k', mem') →
      ReallocKeeps s.live ⟨p, max old minMallocSize⟩ new (min old new) q k' mem mem') ↔
    min old new ≤ 16 ∧ ∃ hb ∈ k.heap, hb.owns p = true := by
  have hkept := heapKept_of_run hrun
  have hfst := hret fun _ => 0
  rw [realloc_fst hnew] at hfst
  obtain ⟨⟨q', k₁⟩, hmalloc, heq⟩ := Option.map_eq_some_iff.mp hfst
  obtain rfl : q = q' := heq.symm
  have hkeeps := reallocKeeps_iff (min old new) hkept hk hbacked hlive hmalloc hq
  have hsize : heapAllocatedSize k₁.heap p = if k.heap.any (·.owns p) then 16 else 0 :=
    heapAllocatedSize_of_malloc hkept hk hbacked hlive hmalloc hq
  have hcell : min new (heapAllocatedSize k₁.heap p) ≤ 16 := by
    rw [hsize]
    split_ifs <;> omega
  have hcopy := copy_keeps_of_malloc (n := min old new) hkept hk hbacked hlive hmalloc hq hcell
  calc (∀ mem k' mem', realloc k mem p new = some (q, k', mem') →
        ReallocKeeps s.live ⟨p, max old minMallocSize⟩ new (min old new) q k' mem mem')
      ↔ ∀ mem : Memory, ∀ i < min old new,
          mem.copy q p (min new (heapAllocatedSize k₁.heap p)) (q + i) = mem (p + i) := by
        refine forall_congr' fun mem => ?_
        rw [realloc_eq hnew hmalloc hq, ← hkeeps mem]
        constructor
        · intro h
          exact h _ _ rfl
        · rintro h k' mem' heq
          obtain ⟨-, heq⟩ := Prod.mk.inj (Option.some.inj heq)
          obtain ⟨rfl, rfl⟩ := Prod.mk.inj heq
          exact h
    _ ↔ min old new ≤ min new (heapAllocatedSize k₁.heap p) := hcopy
    _ ↔ min old new ≤ 16 ∧ k.heap.any (·.owns p) = true := by
        rw [hsize]
        split_ifs with h
        · simp only [h, and_true]
          omega
        · simp only [h, Bool.false_eq_true, and_false, iff_false]
          omega
    _ ↔ min old new ≤ 16 ∧ ∃ hb ∈ k.heap, hb.owns p = true := by rw [List.any_eq_true]

end Realloc

/-- A heap of one page with an allocation of `size` bytes, and every address mapped. -/
@[irreducible] def allocatedPage (size : ℕ) : Heap := (heapAlloc (fun _ => 0) emptyPage size).2

def mappedKernel (heap : Heap) : Kernel := { twoProcesses with
  heap := heap
  mmu := { twoProcesses.mmu with mem := fun _ => 1 } }

theorem mappedKernel_backed (heap : Heap) : Backed (mappedKernel heap) := by
  have hentry : ∀ a, (entryAt (fun _ => 1) a).present = true := by
    intro a
    rw [entryAt, Memory.load, Memory.load, Memory.load, Memory.load, Memory.load]
    decide
  have hmapped : ∀ pdt v, mmuIsMapped (fun _ => 1) pdt v = true := by
    intro pdt v
    simp only [mmuIsMapped, pageOf, hentry, if_true, Option.isSome_some]
  have haligned : 0xc0400000 % 4096 = 0 := by decide
  exact ⟨haligned, hmapped _ _, fun _ _ v _ _ => hmapped _ v⟩

theorem allocatedPage_run {size : ℕ} (hsize : size ≠ 0)
    (hptr : (heapAlloc (fun _ => 0) emptyPage size).1 = 0xc0100114) :
    Run heapStep Anything { heap := heapInit, live := [] }
      [.addBlock 0xc0100000 4096, .alloc (fun _ => 0) size]
      ⟨allocatedPage size, [⟨0xc0100114, size⟩]⟩ := by
  have hstart : heapStep ⟨heapInit, []⟩ (.addBlock 0xc0100000 4096) = some ⟨emptyPage, []⟩ := by
    rw [emptyPage]
    rfl
  have hfirst : heapStep ⟨emptyPage, []⟩ (.alloc (fun _ => 0) size) =
      some ⟨allocatedPage size, [⟨0xc0100114, size⟩]⟩ :=
    heapStep_alloc hsize hptr (by decide) (by rw [allocatedPage])
  exact .cons trivial hstart (.single trivial hfirst)

/-- The first of the bytes is 1, the others are 0. -/
def oneByte : Memory := fun x => if x = 0xc0100114 then 1 else 0

theorem realloc_keeps_ten_of_twenty : ∃ k' mem',
    realloc (mappedKernel (allocatedPage 16)) oneByte 0xc0100114 20 =
      some (0xc0100124, k', mem') ∧
    ReallocKeeps [⟨0xc0100114, 16⟩] ⟨0xc0100114, 16⟩ 20 10 0xc0100124 k' oneByte mem' := by
  have hptr : (heapAlloc (fun _ => 0) emptyPage 16).1 = 0xc0100114 := by decide +kernel
  have hmalloc : (malloc (mappedKernel (allocatedPage 16)) 20).map Prod.fst =
      some 0xc0100124 := by
    decide +kernel
  have hret : ∀ mem, (realloc (mappedKernel (allocatedPage 16)) mem 0xc0100114 20).map Prod.fst =
      some 0xc0100124 := fun mem => (realloc_fst (by decide)).trans hmalloc
  have hkeeps := (realloc_keeps_iff (allocatedPage_run (by decide) hptr) rfl
    (mappedKernel_backed _) (show 1 ≤ 10 by decide) (by decide) (by decide) hret
    (by decide)).mpr ⟨by decide, by decide +kernel⟩
  obtain ⟨⟨q, k', mem'⟩, hrealloc, rfl⟩ := Option.map_eq_some_iff.mp (hret oneByte)
  exact ⟨k', mem', hrealloc, hkeeps oneByte k' mem' hrealloc⟩

/-- Of 32 bytes the first 16 are copied. -/
theorem realloc_loses_data : ¬ ∀ (ops : List HeapOp) (s : HeapState) (k : Kernel)
    (p q old new : ℕ), Run heapStep Anything { heap := heapInit, live := [] } ops s →
    k.heap = s.heap → Backed k → 1 ≤ old → 1 ≤ new → ⟨p, max old minMallocSize⟩ ∈ s.live →
    (∀ mem, (realloc k mem p new).map Prod.fst = some q) → q ≠ 0 →
    ∀ mem k' mem', realloc k mem p new = some (q, k', mem') →
      ReallocKeeps s.live ⟨p, max old minMallocSize⟩ new (min old new) q k' mem mem' := by
  intro h
  have hptr : (heapAlloc (fun _ => 0) emptyPage 32).1 = 0xc0100114 := by decide +kernel
  have hmalloc : (malloc (mappedKernel (allocatedPage 32)) 64).map Prod.fst =
      some 0xc0100134 := by
    decide +kernel
  obtain ⟨⟨q, k₁⟩, hmalloc', rfl⟩ := Option.map_eq_some_iff.mp hmalloc
  have hsize : heapAllocatedSize k₁.heap 0xc0100114 = 16 := by
    have h16 : (malloc (mappedKernel (allocatedPage 32)) 64).map
        (fun r => heapAllocatedSize r.2.heap 0xc0100114) = some 16 := by
      decide +kernel
    rw [hmalloc', Option.map_some] at h16
    exact Option.some.inj h16
  have hkeeps := h _ _ (mappedKernel (allocatedPage 32)) 0xc0100114 _ 32 64
    (allocatedPage_run (by decide) hptr) rfl (mappedKernel_backed _) (by decide) (by decide)
    (by decide) (fun mem => (realloc_fst (by decide)).trans hmalloc) (by decide)
    (fun x => if x = 0xc0100124 then 1 else 0) _ _ (realloc_eq (by decide) hmalloc' (by decide))
  rw [hsize] at hkeeps
  exact absurd (hkeeps.copied 16 (by decide)) (by decide)

end DosKernel
