import DosKernel.Process.Realloc

/-! `process_fork` when frames run out. Nobody looks at the page directory that
`mmu_clone_pdt` returns, and what a clone took before it failed is not given back. -/

namespace DosKernel

open Lib

/-! ### The allocations that can fail -/

/-- `mmu_map_pages` finds no frame for a page table. -/
def mapPagesFails (s : Mmu) (pdt realAddr virtAddr : ℕ) : (len : ℕ) → (rw user : Bool) → Bool
  | 0, _, _ => false
  | len + 1, rw, user =>
    !(entryAt s.mem (pdt + 4 * pdIndex virtAddr)).present &&
        decide ((bitmapAllocPage s.bitmap).1 = 0) ||
      mapPagesFails (mapPage s pdt realAddr virtAddr rw user) pdt
        ((realAddr + bitmapPageSize) % word32) ((virtAddr + bitmapPageSize) % word32) len rw user

/-- `mmu_alloc_pages` finds no frames, for the pages or for a table. -/
def allocPagesFails (s : Mmu) (pages : ℕ) : Bool :=
  (searchPages s.mem s.currentPdt pages 1048576 s.kernelEnd).any fun startAddr =>
    let r := bitmapAllocContiguousPages s.bitmap pages
    decide (startAddr ≠ 0) && (decide (r.1 = 0) ||
      mapPagesFails { s with bitmap := r.2 } s.currentPdt r.1 startAddr pages true false)

/-- `malloc` has to grow the heap and finds no frames for it. -/
def mallocFails (k : Kernel) (size : ℕ) : Bool :=
  let size' := max size minMallocSize
  let pages := growPages size' 4 256
  decide (size ≠ 0) && decide ((heapAlloc k.peek k.heap size').1 = 0) && decide (pages < 4096) &&
    allocPagesFails k.mmu pages

/-- A frame allocation of the fork of `p` fails: in the clone, or in one of the three
allocations of `process_create`. -/
def forkFails (k : Kernel) (p : ℕ) : Bool :=
  let clone := mmuClonePdt k.mmu (k.procs p).pdt
  let k := { k with mmu := clone.2 }
  decide (clone.1 = 0) || mallocFails k sizeofProcess ||
    (calloc k 1 sizeofProcess).any fun node =>
      mallocFails node.2 (256 * sizeofFileDescriptor) ||
        (calloc node.2 256 sizeofFileDescriptor).any fun fd => mallocFails fd.2 (nsig * 4)

/-- The fork returns `NULL`, with the bitmap and the list of processes as they were. -/
def NoTrace (k : Kernel) (p : ℕ) : Prop :=
  ∃ k', processFork k p = some (0, k') ∧ k'.mmu.bitmap = k.mmu.bitmap ∧
    k'.nodes k'.readyQueue = k.nodes k.readyQueue

/-! ### Frames are only taken -/

/-- The frames of `b` are taken in `b'` too. -/
def Bitmap.Below (b b' : Bitmap) : Prop := ∀ g, b.bit g = true → b'.bit g = true

namespace Bitmap.Below

variable {b b' b'' : Bitmap}

theorem refl (b : Bitmap) : b.Below b := fun _ h => h

theorem trans (h : b.Below b') (h' : b'.Below b'') : b.Below b'' := fun g hg => h' g (h g hg)

theorem of_marks {f n : ℕ} (hm : b.Marks b' f n) : b.Below b' := by
  intro g hg
  rw [hm.bit_eq, hg, Bool.true_or]

theorem contiguous (b : Bitmap) {n : ℕ} (hn : 1 ≤ n) :
    b.Below (bitmapAllocContiguousPages b n).2 := by
  rcases bitmapAllocContiguousPages_spec b hn with ⟨he, -⟩ | ⟨f, b', he, -, hm, -⟩
  · rw [he]
    exact refl b
  · rw [he]
    exact of_marks hm

theorem page (b : Bitmap) : b.Below (bitmapAllocPage b).2 := by
  rw [bitmapAllocPage_eq]
  exact contiguous b le_rfl

end Bitmap.Below

section Taken
variable {b : Bitmap} {s s' : Mmu} {k k' : Kernel} {pdt pages a size ptr : ℕ}

theorem mapPage_below (h : b.Below s.bitmap) (pdt real virt : ℕ) (rw user : Bool) :
    b.Below (mapPage s pdt real virt rw user).bitmap := by
  rw [mapPage]
  dsimp only
  split_ifs
  · exact h
  · exact h.trans (.page s.bitmap)

theorem mmuMapPages_below (h : b.Below s.bitmap) (pdt real virt len : ℕ) (rw user : Bool) :
    b.Below (mmuMapPages s pdt real virt len rw user).bitmap := by
  induction len generalizing s real virt with
  | zero => exact h
  | succ len ih =>
    rw [mmuMapPages]
    exact ih (mapPage_below h pdt real virt rw user) _ _

theorem mmuAllocPages_below (hpages : 1 ≤ pages) (h : mmuAllocPages s pages = some (a, s')) :
    s.bitmap.Below s'.bitmap := by
  obtain ⟨start, -, heq⟩ := Option.map_eq_some_iff.mp h
  have hcontiguous := Bitmap.Below.contiguous s.bitmap hpages
  dsimp only at heq
  split_ifs at heq
  · obtain ⟨-, rfl⟩ := Prod.mk.inj heq
    exact .refl s.bitmap
  · obtain ⟨-, rfl⟩ := Prod.mk.inj heq
    exact hcontiguous
  · obtain ⟨-, rfl⟩ := Prod.mk.inj heq
    exact mmuMapPages_below (s := { s with bitmap := (bitmapAllocContiguousPages s.bitmap pages).2 })
      hcontiguous _ _ _ _ _ _

theorem malloc_below (h : malloc k size = some (ptr, k')) :
    k.mmu.bitmap.Below k'.mmu.bitmap := by
  cases malloc_cases h with
  | nothing => exact .refl k.mmu.bitmap
  | found => exact .refl k.mmu.bitmap
  | large => exact .refl k.mmu.bitmap
  | grown _ _ hpages _ halloc =>
    have hle := le_growPages (max size minMallocSize) 4 256
    exact mmuAllocPages_below (by omega) halloc

theorem processAllocate_below {a : Allocated} (h : processAllocate k = some (a, k')) :
    k.mmu.bitmap.Below k'.mmu.bitmap := by
  obtain ⟨node, hnode, h⟩ := Option.bind_eq_some_iff.mp h
  obtain ⟨fd, hfd, h⟩ := Option.bind_eq_some_iff.mp h
  obtain ⟨sig, hsig, h⟩ := Option.map_eq_some_iff.mp h
  obtain ⟨-, rfl⟩ := Prod.mk.inj h
  exact ((malloc_below hnode).trans (malloc_below hfd)).trans (malloc_below hsig)

theorem tryRange_below {f : ℕ → Mmu → Bool × Mmu} {n i : ℕ}
    (hf : ∀ j t, b.Below t.bitmap → b.Below (f j t).2.bitmap) (h : b.Below s.bitmap) :
    b.Below (tryRange f n i s).2.bitmap :=
  tryRange_preserves (I := fun t : Mmu => b.Below t.bitmap) (fun j t _ ht => hf j t ht) h

theorem clonePage_below (h : b.Below s.bitmap) (pt newPt j : ℕ) :
    b.Below (clonePage pt newPt j s).2.bitmap := by
  rw [clonePage]
  dsimp only
  split_ifs
  · exact h.trans (.page s.bitmap)
  · exact h.trans (.page s.bitmap)
  · exact h

theorem cloneEntry_below (h : b.Below s.bitmap) (pdt newPdt i : ℕ) :
    b.Below (cloneEntry pdt newPdt i s).2.bitmap := by
  rw [cloneEntry]
  dsimp only
  split_ifs
  · exact h.trans (.page s.bitmap)
  · exact tryRange_below (fun j t ht => clonePage_below ht _ _ j) (h.trans (.page s.bitmap))
  · exact h

theorem mmuCopyKernelPages_bitmap (s : Mmu) (pdt : ℕ) :
    (mmuCopyKernelPages s pdt).bitmap = s.bitmap := by
  simpa only using congrArg Mmu.bitmap (mmuCopyKernelPages_rest s pdt)

/-- The directory of a clone stays taken, whatever follows. -/
theorem mmuClonePdt_below (s : Mmu) (pdt : ℕ) :
    (bitmapAllocPage s.bitmap).2.Below (mmuClonePdt s pdt).2.bitmap := by
  have hclone : (bitmapAllocPage s.bitmap).2.Below
      (tryRange (cloneEntry pdt (mmuNewPageDirectory s).1) 768 0
        (mmuNewPageDirectory s).2).2.bitmap :=
    tryRange_below (fun i t ht => cloneEntry_below ht _ _ i) (.refl _)
  rw [mmuClonePdt]
  dsimp only
  split_ifs
  · exact .refl _
  · dsimp only
    rw [mmuCopyKernelPages_bitmap]
    exact hclone
  · dsimp only
    exact hclone

theorem processForkAt_mmu (k : Kernel) (a : Allocated) (p pdt : ℕ) :
    (processForkAt k a p pdt).mmu = k.mmu := by
  have hcreate : ∀ r : Registers, (processCreateAt k a r.eip r.useresp pdt false).mmu = k.mmu :=
    fun r => (congrArg Kernel.mmu (processAddReadyQueue_same _ a.node).rest :)
  rw [processForkAt]
  split_ifs
  · exact hcreate _
  · exact hcreate _

end Taken

/-! ### No frame at all -/

/-- A failed `mmu_new_page_directory` clears the page at 0. -/
def Kernel.clearNull (k : Kernel) : Kernel :=
  { k with mmu := { k.mmu with mem := k.mmu.mem.fill 0 4096 0 } }

/-- No frame is free, the heap has no room for a process structure, and the search for the
pages of a new block ends. -/
structure Exhausted (k : Kernel) : Prop where
  frames : ∀ f, ¬ k.mmu.bitmap.Free f 1
  heap : (heapAlloc k.clearNull.peek k.heap sizeofProcess).1 = 0
  search : ∃ a, searchPages k.clearNull.mmu.mem k.mmu.currentPdt 256 1048576 k.mmu.kernelEnd =
    some a

section Full
variable {b : Bitmap} {s : Mmu} {k k' : Kernel} {n p pages size a : ℕ} {xs : List ℕ}

theorem contiguous_full (h : ∀ f, ¬ b.Free f 1) (hn : 1 ≤ n) :
    bitmapAllocContiguousPages b n = (0, b) := by
  rcases bitmapAllocContiguousPages_spec b hn with ⟨he, -⟩ | ⟨f, b', -, hfree, -, -⟩
  · exact he
  · exact absurd (fun g h1 h2 => hfree g h1 (by omega)) (h f)

theorem mmuClonePdt_full (h : ∀ f, ¬ s.bitmap.Free f 1) (pdt : ℕ) :
    mmuClonePdt s pdt = (0, { s with mem := s.mem.fill 0 4096 0 }) := by
  have halloc : mmuNewPageDirectory s = (0, { s with mem := s.mem.fill 0 4096 0 }) := by
    rw [mmuNewPageDirectory, allocZeroed, bitmapAllocPage_eq, contiguous_full h le_rfl]
  rw [mmuClonePdt, halloc]
  exact if_pos rfl

theorem mmuAllocPages_full (h : ∀ f, ¬ s.bitmap.Free f 1) (hpages : 1 ≤ pages)
    (hsearch : searchPages s.mem s.currentPdt pages 1048576 s.kernelEnd = some a) :
    mmuAllocPages s pages = some (0, s) := by
  rw [mmuAllocPages, hsearch, Option.map_some, contiguous_full h hpages]
  simp only [if_true, ite_self]

theorem growPages_small (hsize : size ≤ 1048576) : growPages (max size minMallocSize) 4 256 = 256 := by
  rw [growPages_eq (by rw [minMallocSize]; omega), if_pos (by rw [minMallocSize]; omega)]

/-- Without frames and room, `malloc` returns `NULL` and leaves an empty heap. -/
theorem malloc_full (h : ∀ f, ¬ k.mmu.bitmap.Free f 1) (hpos : size ≠ 0) (hsize : size ≤ 1048576)
    (hroom : (heapAlloc k.peek k.heap (max size minMallocSize)).1 = 0)
    (hsearch : searchPages k.mmu.mem k.mmu.currentPdt 256 1048576 k.mmu.kernelEnd = some a) :
    malloc k size = some (0, { k with heap := [] }) :=
  Requests.malloc_null ⟨hpos, hroom, growPages_small hsize, by decide⟩
    (mmuAllocPages_full h (by decide) hsearch)

theorem processAllocate_full (h : ∀ f, ¬ k.mmu.bitmap.Free f 1)
    (hroom : (heapAlloc k.peek k.heap sizeofProcess).1 = 0)
    (hsearch : searchPages k.mmu.mem k.mmu.currentPdt 256 1048576 k.mmu.kernelEnd = some a) :
    processAllocate k = some (⟨0, 0, 0⟩, { k with heap := [] }) := by
  have hrest : ∀ size, size ≠ 0 → size ≤ 1048576 →
      malloc { k with heap := [] } size = some (0, { k with heap := [] }) := fun size hpos hle =>
    malloc_full (k := { k with heap := [] }) h hpos hle rfl hsearch
  have hnode : calloc k 1 sizeofProcess = some (0, { k with heap := [] }) :=
    malloc_full h (by decide) (by decide) hroom hsearch
  have hfd : calloc { k with heap := [] } 256 sizeofFileDescriptor =
      some (0, { k with heap := [] }) := hrest _ (by decide) (by decide)
  have hsig : calloc { k with heap := [] } nsig 4 = some (0, { k with heap := [] }) :=
    hrest _ (by decide) (by decide)
  rw [processAllocate, hnode, Option.bind_some, hfd, Option.bind_some, hsig, Option.map_some]

/-- A process structure at `NULL` does not get into the list. -/
theorem processForkAt_null (hlist : IsList k.next k.readyQueue xs) (haddr : ∀ q ∈ xs, q < word32)
    (p pdt : ℕ) : (processForkAt k ⟨0, 0, 0⟩ p pdt).nodes
      (processForkAt k ⟨0, 0, 0⟩ p pdt).readyQueue = xs := by
  have hnext : ∀ entry stack, (processFill k ⟨0, 0, 0⟩ entry stack pdt false).next = k.next := by
    intro entry stack
    funext q
    simp only [Kernel.next, processFill]
    by_cases hq : q = 0
    · rw [hq, Function.update_self, newProcess, if_pos rfl]
    · rw [Function.update_of_ne hq]
  rw [processForkAt, if_pos rfl, processCreateAt]
  refine nodes_eq_of_isList (processAddReadyQueue_null ?_ haddr).1 haddr
  rw [hnext]
  exact hlist

theorem Exhausted.noTrace (h : Exhausted k) (hlist : IsList k.next k.readyQueue xs)
    (haddr : ∀ q ∈ xs, q < word32) (p : ℕ) : NoTrace k p := by
  obtain ⟨a, hsearch⟩ := h.search
  have halloc := processAllocate_full (k := k.clearNull) h.frames h.heap hsearch
  have hfork : processFork k p =
      some (0, processForkAt { k.clearNull with heap := [] } ⟨0, 0, 0⟩ p 0) := by
    rw [processFork]
    dsimp only
    rw [mmuClonePdt_full h.frames]
    exact Option.map_eq_some_iff.mpr ⟨_, halloc, rfl⟩
  refine ⟨_, hfork, ?_, ?_⟩
  · rw [processForkAt_mmu]
    rfl
  · rw [nodes_eq_of_isList hlist haddr]
    exact processForkAt_null (k := { k.clearNull with heap := [] }) hlist haddr p 0

/-- `malloc` returns `NULL` only behind a failed search of the heap and an ended one of the
pages. -/
theorem malloc_null_cases (hpos : size ≠ 0) (hsize : size ≤ 1048576)
    (h : malloc k size = some (0, k')) :
    (heapAlloc k.peek k.heap (max size minMallocSize)).1 = 0 ∧
      ∃ a, searchPages k.mmu.mem k.mmu.currentPdt 256 1048576 k.mmu.kernelEnd = some a := by
  have hgrow := growPages_small hsize
  generalize hptr : (0 : ℕ) = ptr at h
  cases malloc_cases h with
  | nothing hzero => exact absurd hzero hpos
  | found _ hroom => exact absurd hptr.symm hroom
  | large _ _ hlarge => omega
  | grown _ hfull hpages _ halloc =>
    obtain ⟨a, ha, -⟩ := Option.map_eq_some_iff.mp halloc
    exact ⟨hfull.trans hptr, a, by rw [← ha, ← hpages, hgrow]⟩

theorem NoTrace.exhausted (h : NoTrace k p) : Exhausted k := by
  obtain ⟨k', hfork, hbitmap, -⟩ := h
  obtain ⟨⟨a, k₂⟩, halloc, heq⟩ := Option.map_eq_some_iff.mp hfork
  obtain ⟨hnode, rfl⟩ := Prod.mk.inj heq
  have hframes : ∀ f, ¬ k.mmu.bitmap.Free f 1 := by
    rcases bitmapAllocContiguousPages_spec k.mmu.bitmap le_rfl with
      ⟨-, hnone⟩ | ⟨f, b', he, hfree, hm, -⟩
    · exact hnone
    · -- the frame of the new directory is still taken at the end
      have hlater := processAllocate_below halloc
      have hbelow := (mmuClonePdt_below k.mmu (k.procs p).pdt).trans hlater
      rw [processForkAt_mmu] at hbitmap
      rw [hbitmap, bitmapAllocPage_eq, he] at hbelow
      have hset := hbelow f (by rw [hm.bit_eq]; simp)
      rw [(hfree f le_rfl (by omega)).2] at hset
      cases hset
  rw [mmuClonePdt_full hframes] at halloc
  obtain ⟨⟨node, k₁⟩, hcalloc, h⟩ := Option.bind_eq_some_iff.mp halloc
  obtain ⟨fd, -, h⟩ := Option.bind_eq_some_iff.mp h
  obtain ⟨sig, -, h⟩ := Option.map_eq_some_iff.mp h
  obtain ⟨rfl, -⟩ := Prod.mk.inj h
  obtain rfl : node = 0 := hnode
  obtain ⟨hheap, hsearch⟩ := malloc_null_cases (k := k.clearNull) (by decide) (by decide) hcalloc
  exact ⟨hframes, hheap, hsearch⟩

end Full

/-- A fork in which a frame allocation fails leaves no trace exactly if there was neither a
free frame nor room in the heap, and the search for pages ends. -/
theorem failed_fork_no_trace_iff {k : Kernel} {xs : List ℕ}
    (hlist : IsList k.next k.readyQueue xs) (haddr : ∀ q ∈ xs, q < word32) (p : ℕ) :
    (forkFails k p = true → NoTrace k p) ↔ (forkFails k p = true → Exhausted k) :=
  ⟨fun h hfail => (h hfail).exhausted, fun h hfail => (h hfail).noTrace hlist haddr p⟩

/-- `twoProcesses` without a free frame. -/
def fullKernel (heap : Heap) : Kernel := { twoProcesses with
  heap := heap
  mmu := { twoProcesses.mmu with bitmap := ⟨0x400000, 64, fun _ => BitVec.allOnes 32⟩ } }

theorem fullKernel_frames (heap : Heap) (f : ℕ) : ¬ (fullKernel heap).mmu.bitmap.Free f 1 := by
  intro hfree
  have hbit : (BitVec.allOnes 32).getLsbD (f % 32) = false := (hfree f le_rfl (by omega)).2
  rw [BitVec.getLsbD_allOnes, decide_eq_false_iff_not] at hbit
  omega

theorem fullKernel_list (heap : Heap) :
    IsList (fullKernel heap).next (fullKernel heap).readyQueue [16, 32] :=
  twoProcesses_queued.list

theorem fullKernel_fails (heap : Heap) : forkFails (fullKernel heap) 16 = true := by
  rw [forkFails, mmuClonePdt_full (fullKernel_frames heap)]
  rfl

theorem failed_fork_no_trace_of_empty_heap :
    forkFails (fullKernel []) 16 = true ∧ NoTrace (fullKernel []) 16 := by
  have hsearch : searchPages (fullKernel []).clearNull.mmu.mem 0x1000 256 1048576 0xc0400000 =
      some 0xc0400000 := by
    decide +kernel
  have hfull : Exhausted (fullKernel []) := ⟨fullKernel_frames [], rfl, _, hsearch⟩
  exact ⟨fullKernel_fails [], (failed_fork_no_trace_iff (fullKernel_list []) (by decide) 16).mpr
    (fun _ => hfull) (fullKernel_fails [])⟩

/-- With room in the heap the child is made, with `NULL` for its page directory. -/
theorem failed_fork_makes_child : ¬ ∀ (k : Kernel) (xs : List ℕ) (p : ℕ),
    IsList k.next k.readyQueue xs → (∀ q ∈ xs, q < word32) → forkFails k p = true →
      NoTrace k p := by
  intro h
  let heap := heapAddBlock [] 0xc0400000 0x100000 16
  have hfilled := heapAddBlock_filled [] (show 0xc0400000 ≠ 0 by decide)
  obtain ⟨c, k₁, hfork, hc⟩ := processFork_filled (k := fullKernel heap) hfilled (by decide) (by decide) (by decide) 16
  obtain ⟨k', hnull, -⟩ := h (fullKernel heap) _ 16 (fullKernel_list heap) (by decide)
    (fullKernel_fails heap)
  rw [hfork] at hnull
  exact hc (Prod.mk.inj (Option.some.inj hnull)).1

end DosKernel
