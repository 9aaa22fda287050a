import DosKernel.Heap.Filled
import DosKernel.Paging.KernelHalf
import DosKernel.Process.Lifecycle

/-! Memory for processes. What `calloc` gives to `process_create` is not in use: the heap
gives out free cells, and it grows by pages that were not mapped. -/

namespace DosKernel

open Lib

/-! ### Mapped memory -/

/-- The bytes `[a, a + n)` are mapped in the loaded directory. -/
def Mmu.MapsRange (s : Mmu) (a n : ℕ) : Prop :=
  ∀ i < n, mmuIsMapped s.mem s.currentPdt (a + i) = true

theorem mmuIsMapped_same {m : Memory} {pdt v w : ℕ} (h : v / 4096 = w / 4096) :
    mmuIsMapped m pdt v = mmuIsMapped m pdt w := by
  rw [mmuIsMapped, mmuIsMapped, pageOf_same h]

/-- One byte of every page is enough. -/
theorem Mmu.mapsRange_iff {s : Mmu} {a n : ℕ} : s.MapsRange a n ↔ n = 0 ∨
    ∀ i < (a % 4096 + n + 4095) / 4096, mmuIsMapped s.mem s.currentPdt (a / 4096 * 4096 + i * 4096) =
      true := by
  constructor
  · intro h
    by_cases hn : n = 0
    · exact .inl hn
    · refine .inr fun i hi => ?_
      have hbyte := h (max a (a / 4096 * 4096 + i * 4096) - a) (by omega)
      rwa [mmuIsMapped_same (w := a / 4096 * 4096 + i * 4096) (by omega)] at hbyte
  · rintro (rfl | h) i hi
    · exact absurd hi (Nat.not_lt_zero i)
    · rw [mmuIsMapped_same (w := a / 4096 * 4096 + (a % 4096 + i) / 4096 * 4096) (by omega)]
      exact h _ (by omega)

instance (s : Mmu) (a n : ℕ) : Decidable (s.MapsRange a n) := decidable_of_iff' _ Mmu.mapsRange_iff

section Search
variable {m : Memory} {s : Mmu} {pdt pages fuel addr a n g : ℕ}

theorem searchPages_page (haligned : addr % 4096 = 0)
    (h : searchPages m pdt pages fuel addr = some a) :
    a = 0 ∨ a < word32 ∧ a % 4096 = 0 ∧ rangeUnmapped m pdt a pages = true := by
  induction fuel generalizing addr with
  | zero => cases h
  | succ fuel ih =>
    rw [searchPages] at h
    split_ifs at h with hstop hgap
    · obtain rfl := Option.some.inj h
      refine .inr ⟨?_, haligned, hgap⟩
      rw [word32]
      omega
    · refine ih ?_ h
      simp only [bitmapPageSize, word32]
      omega
    · exact .inl (Option.some.inj h).symm

theorem mmuAllocPages_page {s' : Mmu} (hend : s.kernelEnd % 4096 = 0)
    (h : mmuAllocPages s pages = some (a, s')) :
    a = 0 ∨ a < word32 ∧ a % 4096 = 0 ∧ rangeUnmapped s.mem s.currentPdt a pages = true := by
  obtain ⟨start, hsearch, h⟩ := Option.map_eq_some_iff.mp h
  dsimp only at h
  split_ifs at h
  · exact .inl (Prod.mk.inj h).1.symm
  · exact .inl (Prod.mk.inj h).1.symm
  · obtain rfl := (Prod.mk.inj h).1
    exact searchPages_page hend hsearch

/-- Pages that are not mapped lie off what is mapped. They do not run over the end of the address
space when the first page is mapped. -/
theorem unmapped_apart (hpages : 0 < pages) (hgap : rangeUnmapped s.mem s.currentPdt g pages = true)
    (hlt : g < word32) (hpage : g % 4096 = 0) (hzero : s.MapsRange 0 1) :
    g + pages * bitmapPageSize ≤ word32 ∧
      ∀ a n, 0 < n → s.MapsRange a n → a + n ≤ g ∨ g + pages * bitmapPageSize ≤ a := by
  have hfree : ∀ i < pages,
      mmuIsMapped s.mem s.currentPdt ((g + i * bitmapPageSize) % word32) = false := fun i hi => by
    simpa using List.all_eq_true.mp hgap i (List.mem_range.mpr hi)
  simp only [bitmapPageSize, word32] at *
  have htop : g + pages * 4096 ≤ 4294967296 := by
    by_contra hover
    have hfirst := hfree ((4294967296 - g) / 4096) (by omega)
    have hwrap : (g + (4294967296 - g) / 4096 * 4096) % 4294967296 = 0 + 0 := by omega
    rw [hwrap, hzero 0 Nat.one_pos] at hfirst
    cases hfirst
  refine ⟨htop, fun a n hn hmaps => ?_⟩
  by_contra hover
  -- a byte that is in both
  have hbyte := hmaps (max a g - a) (by omega)
  have hnone := hfree ((max a g - g) / 4096) (by omega)
  rw [Nat.mod_eq_of_lt (by omega)] at hnone
  rw [mmuIsMapped_same (w := a + (max a g - a)) (by omega), hbyte] at hnone
  cases hnone

end Search

/-! ### The operations keep `kernel_end` -/

theorem mapPage_rest (s : Mmu) (pdt real virt : ℕ) (rw user : Bool) :
    { mapPage s pdt real virt rw user with mem := s.mem, bitmap := s.bitmap } = s := by
  rw [mapPage]
  dsimp only
  split_ifs <;> rfl

theorem mmuMapPages_kernelEnd (s : Mmu) (pdt real virt len : ℕ) (rw user : Bool) :
    (mmuMapPages s pdt real virt len rw user).kernelEnd = s.kernelEnd := by
  induction len generalizing s real virt with
  | zero => rfl
  | succ len ih =>
    rw [mmuMapPages, ih]
    exact (congrArg Mmu.kernelEnd (mapPage_rest s pdt real virt rw user) :)

theorem mmuAllocPages_kernelEnd {s s' : Mmu} {pages a : ℕ} (h : mmuAllocPages s pages = some (a, s')) :
    s'.kernelEnd = s.kernelEnd := by
  obtain ⟨start, -, h⟩ := Option.map_eq_some_iff.mp h
  split_ifs at h with h0
  · obtain ⟨-, rfl⟩ := Prod.mk.inj h
    rfl
  · dsimp only at h
    split_ifs at h
    · obtain ⟨-, rfl⟩ := Prod.mk.inj h
      rfl
    · obtain ⟨-, rfl⟩ := Prod.mk.inj h
      exact mmuMapPages_kernelEnd _ _ _ _ _ _ _

theorem mmuClonePdt_kernelEnd (s : Mmu) (pdt : ℕ) : (mmuClonePdt s pdt).2.kernelEnd = s.kernelEnd := by
  have hclone : ∀ s' d, (tryRange (cloneEntry pdt d) 768 0 s').2.kernelEnd = s'.kernelEnd :=
    fun s' d => (congrArg Mmu.kernelEnd (clone_rest s' pdt d) :)
  have hcopy : ∀ s' d, (mmuCopyKernelPages s' d).kernelEnd = s'.kernelEnd := fun s' d =>
    forRange_invariant (I := fun (_ : ℕ) (t : Mmu) => t.kernelEnd = s'.kernelEnd)
      (fun _ _ _ _ h => h) rfl
  have hnew : (mmuNewPageDirectory s).2.kernelEnd = s.kernelEnd := by
    rw [mmuNewPageDirectory, allocZeroed]
  rw [mmuClonePdt]
  dsimp only
  split_ifs
  · exact hnew
  · rw [hcopy, hclone, hnew]
  · rw [hclone, hnew]

theorem mmuFreePages_kernelEnd (s : Mmu) (pdt addr pages : ℕ) :
    (mmuFreePages s pdt addr pages).kernelEnd = s.kernelEnd := by
  refine forRange_invariant (I := fun (_ : ℕ) (s' : Mmu) => s'.kernelEnd = s.kernelEnd)
    (fun i s' _ _ hs' => ?_) rfl
  rw [freePage]
  split_ifs
  · rw [mmuUnmapPages, mmuUnmapPages, unmapPage]
    split_ifs <;> exact hs'
  · exact hs'

theorem releaseAddressSpace_kernelEnd (s : Mmu) (pdt : ℕ) :
    (releaseAddressSpace s pdt).kernelEnd = s.kernelEnd := by
  simp only [releaseAddressSpace, mmuFreePages_kernelEnd]

theorem malloc_kernelEnd {k k' : Kernel} {size ptr : ℕ} (h : malloc k size = some (ptr, k')) :
    k'.mmu.kernelEnd = k.mmu.kernelEnd := by
  cases malloc_cases h with
  | nothing => rfl
  | found => rfl
  | large => rfl
  | grown _ _ _ _ halloc _ => exact mmuAllocPages_kernelEnd halloc

/-! ### Memory in use -/

def OffHeap (heap : Heap) (a : Alloc) : Prop := ∀ hb ∈ heap, regionApart a.ptr a.size hb = true

/-- The heap holds `held`; what is in use is held, or in a block that the heap has lost. -/
structure HeapKeeps (heap : Heap) (held used : List Alloc) : Prop where
  marks : HeapMarks ⟨heap, held⟩
  owned : ∀ a ∈ used, a ∈ held ∨ OffHeap heap a
  size_pos : ∀ a : Alloc, a ∈ used → 0 < a.size

/-- What is in use after an allocation. -/
def grant (ptr size : ℕ) (used : List Alloc) : List Alloc :=
  if ptr = 0 then used else ⟨ptr, size⟩ :: used

/-- What an allocation leaves: its memory is in use, and was not before. -/
structure Granted (heap : Heap) (ptr size : ℕ) (used : List Alloc) : Prop where
  keeps : ∃ held, HeapKeeps heap held (grant ptr size used)
  fresh : ptr ≠ 0 → ∀ a ∈ used, a.ptr ≠ ptr

section Blocks
variable {heap l r : Heap} {held used rest : List Alloc} {hb hb' : HeapBlock} {a : Alloc}
  {x n addr size : ℕ} {v : UInt8}

theorem HeapKeeps.mono (h : HeapKeeps heap held used) (hsub : rest ⊆ used) :
    HeapKeeps heap held rest :=
  ⟨h.marks, fun c hc => h.owned c (hsub hc), fun c hc => h.size_pos c (hsub hc)⟩

theorem OffHeap.remark (h : OffHeap (l ++ hb :: r) a) (hm : hb.Remark hb' x n v) :
    OffHeap (l ++ hb' :: r) a := by
  intro k hk
  rcases mem_middle.mp hk with rfl | hk
  · have hsame := h hb (mem_middle.mpr (.inl rfl))
    rwa [regionApart, ← hm.base_eq, ← hm.size_eq] at hsame
  · exact h k (mem_middle.mpr (.inr hk))

/-- The cells that `heap_alloc` gives out are not in use. -/
theorem HeapKeeps.alloc (h : HeapKeeps heap held used) (peek : ℕ → UInt8) (hsize : 1 ≤ size) :
    Granted (heapAlloc peek heap size).2 (heapAlloc peek heap size).1 size used := by
  rcases h.marks.heapAlloc_spec peek hsize with
    h0 | ⟨l, hb, r, hb', x, v, p, hheap, heq, hm, hp, hmarks⟩
  · dsimp only at h0
    rw [h0]
    exact ⟨⟨held, by rwa [grant, if_pos rfl]⟩, fun hne => absurd rfl hne⟩
  · dsimp only at hheap heq
    rw [heq]
    have hoff : ∀ a, OffHeap heap a → OffHeap (l ++ hb' :: r) a := fun a ha =>
      OffHeap.remark (hheap ▸ ha) hm
    obtain ⟨k, hk, y, hy⟩ := hmarks.placed ⟨p, size⟩ List.mem_cons_self
    have hcells := hy.cells_pos
    refine ⟨⟨⟨p, size⟩ :: held, hmarks, ?_, ?_⟩, fun _ a ha hap => ?_⟩
    · rw [grant, if_neg hp, List.forall_mem_cons]
      exact ⟨.inl List.mem_cons_self, fun a ha =>
        (h.owned a ha).imp (List.mem_cons_of_mem _) (hoff a)⟩
    · rw [grant, if_neg hp, List.forall_mem_cons]
      exact ⟨hsize, h.size_pos⟩
    · rcases h.owned a ha with hheld | hlost
      -- in the heap allocations are disjoint
      · obtain ⟨j, -, z, hz⟩ := h.marks.placed a hheld
        have hcells' := hz.cells_pos
        refine (List.pairwise_cons.mp hmarks.disjoint).1 a hheld p ⟨le_rfl, ?_⟩ ⟨hap.le, ?_⟩
        · dsimp only
          omega
        · omega
      -- and a lost one lies off the block
      · have hptr : a.ptr = p := hap
        have hapart := hoff a hlost k hk
        have hin := hy.bounds (d := 0) (hmarks.made k hk) (by omega)
        simp only [regionApart, Bool.or_eq_true, decide_eq_true_eq] at hapart
        dsimp only at hin
        rw [sizeofHeapBlock] at hapart hin
        omega

/-- A block on a region off what is in use. At `NULL` the heap loses all blocks. -/
theorem HeapKeeps.grow (h : HeapKeeps heap held used) (hsize : 4096 ≤ size)
    (hblocks : addr ≠ 0 → addr + size ≤ word32 ∧ ∀ hb ∈ heap, regionApart addr size hb = true)
    (hused : addr ≠ 0 → ∀ a : Alloc, a ∈ used → a.ptr + a.size ≤ addr ∨ addr + size ≤ a.ptr) :
    ∃ held', HeapKeeps (heapAddBlock heap addr size 16) held' used := by
  by_cases h0 : addr = 0
  · refine ⟨[], ?_⟩
    rw [heapAddBlock, if_pos h0]
    exact ⟨HeapMarks.init, fun a _ => .inr fun _ hmem => absurd hmem List.not_mem_nil, h.size_pos⟩
  · obtain ⟨htop, hapart⟩ := hblocks h0
    refine ⟨held, h.marks.addBlock h0 hsize htop hapart, fun a ha => ?_, h.size_pos⟩
    refine (h.owned a ha).imp_right fun hoff => ?_
    obtain ⟨hb, hadd, hnew⟩ := heapAddBlock_eq heap h0 hsize (by omega)
    rw [OffHeap, hadd, List.forall_mem_cons]
    refine ⟨?_, hoff⟩
    have hfar := hused h0 a ha
    simp only [regionApart, Bool.or_eq_true, decide_eq_true_eq, hnew.base_eq, hnew.size_eq,
      sizeofHeapBlock]
    omega

/-- What is freed is not in use any more, everything else is. -/
theorem HeapKeeps.free (h : HeapKeeps heap held used) (ha : a ∈ used)
    (hrest : ∀ c : Alloc, c ∈ rest → c ∈ used ∧ c ≠ a) :
    ∃ held', HeapKeeps (heapFree heap a.ptr).2 held' rest := by
  have hpos : ∀ c ∈ rest, 0 < c.size := fun c hc => h.size_pos c (hrest c hc).1
  have hkeep : ∃ held', HeapKeeps heap held' rest :=
    ⟨held, h.marks, fun c hc => h.owned c (hrest c hc).1, hpos⟩
  rcases h.owned a ha with hheld | hlost
  · rcases h.marks.heapFree_cases hheld with
      ⟨l, hb, r, hb', x, hheap, hfree, hx, hm, hused⟩ | ⟨hfree, -⟩
    · dsimp only at hheap hfree
      rw [hfree]
      refine ⟨held.erase a, h.marks.free hheap hheld hx hm hused, fun c hc => ?_, hpos⟩
      exact (h.owned c (hrest c hc).1).imp (List.mem_erase_of_ne (hrest c hc).2).mpr
        fun hoff => OffHeap.remark (hheap ▸ hoff) hm
    · dsimp only at hfree
      rw [hfree]
      exact hkeep
  · have hnone : ∀ k ∈ heap, k.owns a.ptr = false := by
      intro k hk
      have hapart := hlost k hk
      have hsize := h.size_pos a ha
      have hmod := Nat.mod_le (k.base + sizeofHeapBlock + k.size) word32
      rw [HeapBlock.owns, Bool.and_eq_false_iff, decide_eq_false_iff_not, decide_eq_false_iff_not]
      simp only [regionApart, Bool.or_eq_true, decide_eq_true_eq] at hapart
      omega
    rw [heapFree_none hnone]
    exact hkeep

end Blocks

/-! ### `malloc` -/

/-- When the heap has no room, the first page, the blocks of the heap and what is in use are
mapped in the loaded directory. -/
def AllocationMapped (k : Kernel) (size : ℕ) (used : List Alloc) : Prop :=
  (heapAlloc k.peek k.heap size).1 = 0 → k.mmu.MapsRange 0 1 ∧
    (∀ hb ∈ k.heap, k.mmu.MapsRange hb.base (sizeofHeapBlock + hb.size)) ∧
    ∀ a ∈ used, k.mmu.MapsRange a.ptr a.size

section Malloc
variable {k k' : Kernel} {held used : List Alloc} {size ptr : ℕ}

theorem le_growPages (size fuel pages : ℕ) : pages ≤ growPages size fuel pages := by
  induction fuel generalizing pages with
  | zero => exact le_rfl
  | succ fuel ih =>
    rw [growPages]
    split_ifs
    · exact (Nat.le_mul_of_pos_left pages Nat.two_pos).trans (ih (2 * pages))
    · exact le_rfl

theorem malloc_granted (h : HeapKeeps k.heap held used) (hend : k.mmu.kernelEnd % 4096 = 0)
    (hm : malloc k size = some (ptr, k')) (hc : AllocationMapped k (max size minMallocSize) used) :
    Granted k'.heap ptr (max size minMallocSize) used := by
  have hcases := malloc_cases hm
  have hpos : 1 ≤ max size minMallocSize := (by decide : 1 ≤ minMallocSize).trans (le_max_right _ _)
  generalize hmax : max size minMallocSize = n at *
  have halloc := h.alloc k.peek hpos
  rw [AllocationMapped] at hc
  cases hcases with
  | nothing => exact ⟨⟨held, by rwa [grant, if_pos rfl]⟩, fun hne => absurd rfl hne⟩
  | found => rwa [hmax]
  | large _ hfull =>
    rw [hmax] at hfull ⊢
    rwa [hfull] at halloc
  | @grown _ hfull pages hpages hlt addr _ hregion _ _ hblock =>
    rw [hmax] at hfull hpages hblock ⊢
    obtain ⟨hzero, hblocks, hused⟩ := hc hfull
    have hroom := le_growPages n 4 256
    -- a heap without room stays as it is
    obtain ⟨held', hkeeps⟩ := halloc.keeps
    rw [hfull, grant, if_pos rfl] at hkeeps
    have hsame : (heapAlloc k.peek k.heap n).2 = k.heap := by
      rcases h.marks.heapAlloc_spec k.peek hpos with
        h0 | ⟨l, hb, r, hb', x, v, p, hheap, heq, -, hne, -⟩
      · exact (congrArg Prod.snd h0 :)
      · exact absurd ((congrArg Prod.fst heq).symm.trans hfull) hne
    rw [hsame] at hblock
    have hapart : addr ≠ 0 → addr + pages * bitmapPageSize ≤ word32 ∧
        ∀ a n, 0 < n → k.mmu.MapsRange a n → a + n ≤ addr ∨ addr + pages * bitmapPageSize ≤ a := by
      intro hne
      obtain ⟨hlow, hpage, hgap⟩ := (mmuAllocPages_page hend hregion).resolve_left hne
      exact unmapped_apart (by omega) hgap hlow hpage hzero
    have hblocks' : addr ≠ 0 → addr + pages * bitmapPageSize ≤ word32 ∧
        ∀ hb ∈ k.heap, regionApart addr (pages * bitmapPageSize) hb = true := by
      refine fun hne => ⟨(hapart hne).1, fun hb hmem => ?_⟩
      have hfar := (hapart hne).2 _ _ (by rw [sizeofHeapBlock]; omega) (hblocks hb hmem)
      simp only [regionApart, Bool.or_eq_true, decide_eq_true_eq]
      omega
    obtain ⟨held'', hnew⟩ := (hsame ▸ hkeeps).grow (by rw [bitmapPageSize]; omega) hblocks'
      fun hne a ha => (hapart hne).2 _ _ (h.size_pos a ha) (hused a ha)
    rw [hblock] at hnew
    exact hnew.alloc _ hpos

end Malloc

/-! ### `malloc` in a heap filled from the front -/

section Filled
variable {heap l r : Heap} {k : Kernel} {addr size x n : ℕ}

/-- With room in the heap `malloc` does not need pages. -/
theorem malloc_room {ptr : ℕ} (hn : minMallocSize ≤ n) (h : heapAlloc k.peek k.heap n = (ptr, heap))
    (hne : ptr ≠ 0) : malloc k n = some (ptr, { k with heap := heap }) ∧
      ∀ used, AllocationMapped k n used := by
  have hpos : n ≠ 0 := by
    rw [minMallocSize] at hn
    omega
  refine ⟨?_, fun used h0 => absurd h0 (by rwa [h])⟩
  rw [malloc, if_neg hpos, max_eq_left hn]
  dsimp only
  rw [h, if_neg hne]

theorem HeapFilledTo.malloc (h : HeapFilledTo k.heap l addr size x r) (hn : minMallocSize ≤ n)
    (hx : 2 ≤ x) (hroom : 16 * (x + divUp n 16) ≤ size - 20) (htop : addr + size ≤ word32) :
    ∃ heap, DosKernel.malloc k n = some (addr + 20 + 16 * x, { k with heap := heap }) ∧
      HeapFilledTo heap l addr size (x + divUp n 16) r ∧ ∀ used, AllocationMapped k n used := by
  have hpos : minMallocSize = 16 := rfl
  have hcells : 1 ≤ divUp n 16 := by
    rw [divUp_sixteen]
    omega
  obtain ⟨heap, halloc, hfilled⟩ := h.alloc k.peek hn hx hroom (by omega)
  rw [pointer_eq (by omega) htop] at halloc
  obtain ⟨hmalloc, hmapped⟩ := malloc_room hn halloc (by omega)
  exact ⟨heap, hmalloc, hfilled, hmapped⟩

end Filled

end DosKernel
