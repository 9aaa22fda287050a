import DosKernel.Paging.KernelHalf
import DosKernel.Process.Queue
import DosKernel.Process.Switching

/-! What `process_fork` takes and `process_destroy` gives back. A fork makes three
allocations: the process structure, its descriptors and its table of signal handlers.
Destruction frees the descriptors and the structure. -/

namespace DosKernel

open Lib

/-! ### Allocations of the kernel -/

section Malloc
variable {k k' : Kernel}

/-- `mmu_alloc_pages` returns the address of a page. -/
theorem mmuAllocPages_aligned {s s' : Mmu} {pages a : ℕ} (hend : s.kernelEnd % 4096 = 0)
    (h : mmuAllocPages s pages = some (a, s')) : a % 4096 = 0 := by
  have hsearch : ∀ {fuel addr start : ℕ}, addr % 4096 = 0 →
      searchPages s.mem s.currentPdt pages fuel addr = some start → start % 4096 = 0 := by
    intro fuel
    induction fuel with
    | zero => intro addr start _ h; cases h
    | succ fuel ih =>
      intro addr start haddr h
      rw [searchPages] at h
      split_ifs at h
      · exact Option.some.inj h ▸ haddr
      · refine ih ?_ h
        simp only [bitmapPageSize, word32]
        omega
      · exact Option.some.inj h ▸ rfl
  obtain ⟨start, hstart, heq⟩ := Option.map_eq_some_iff.mp h
  dsimp only at heq
  split_ifs at heq
  · exact (Prod.mk.inj heq).1 ▸ rfl
  · exact (Prod.mk.inj heq).1 ▸ rfl
  · exact (Prod.mk.inj heq).1 ▸ hsearch hend hstart

/-- A small allocation fails only when the heap could not grow, and then the heap is
empty: the new block was put at `NULL`. -/
theorem malloc_small_eq_zero (hend : k.mmu.kernelEnd % 4096 = 0) {size : ℕ} (hpos : 1 ≤ size)
    (hsmall : size ≤ 4096) (h : malloc k size = some (0, k')) : k'.heap = [] := by
  have hmax : 1 ≤ max size minMallocSize ∧ max size minMallocSize ≤ 4096 := by
    rw [minMallocSize]
    omega
  have hgrow : growPages (max size minMallocSize) 4 256 = 256 := by
    rw [growPages, if_neg (by rw [bitmapPageSize]; omega)]
  generalize hptr : (0 : ℕ) = ptr at h
  cases malloc_cases h with
  | nothing hzero => omega
  | found _ hroom => exact absurd hptr.symm hroom
  | large _ _ hlarge => omega
  | @grown _ _ pages hpages _ a m halloc peek heap hblock =>
    obtain rfl : pages = 256 := hpages.symm.trans hgrow
    by_cases ha : a = 0
    · rw [← hblock, ha]
      rfl
    · have haligned := mmuAllocPages_aligned hend halloc
      obtain ⟨heap', hheap, -⟩ := (heapAddBlock_filled
        (heapAlloc k.peek k.heap (max size minMallocSize)).2 ha).alloc peek
        (le_max_right size minMallocSize) (by norm_num) (by rw [divUp_sixteen]; omega)
        (by norm_num [word32])
      rw [← hblock, show 256 * bitmapPageSize = 0x100000 from rfl, hheap] at hptr
      dsimp only [word32] at hptr
      omega

/-- When the table of signal handlers could not be allocated the heap is empty. -/
theorem processAllocate_sigHandles {a : Allocated} (hend : k.mmu.kernelEnd % 4096 = 0)
    (h : processAllocate k = some (a, k')) (hsig : a.sigHandles = 0) : k'.heap = [] := by
  obtain ⟨⟨node, k₁⟩, hnode, h⟩ := Option.bind_eq_some_iff.mp h
  obtain ⟨⟨fd, k₂⟩, hfd, h⟩ := Option.bind_eq_some_iff.mp h
  obtain ⟨⟨sig, k₃⟩, hsig₃, h⟩ := Option.map_eq_some_iff.mp h
  obtain ⟨rfl, rfl⟩ := Prod.mk.inj h
  obtain rfl : sig = 0 := hsig
  have hend₂ : k₂.mmu.kernelEnd % 4096 = 0 := by
    rw [malloc_kernelEnd hfd, malloc_kernelEnd hnode, hend]
  exact malloc_small_eq_zero hend₂ (by decide) (by decide) hsig₃

end Malloc

/-! ### Fork and destruction -/

/-- The pointers that the fork of `p` gets from the heap. -/
def forkAllocs (k : Kernel) (p : ℕ) : List ℕ :=
  ((processAllocate { k with mmu := (mmuClonePdt k.mmu (k.procs p).pdt).2 }).elim [] fun a =>
    [a.1.node, a.1.fd, a.1.sigHandles]).filter (· ≠ 0)

/-- The pointer that a `free` gives back to the heap. -/
def freed (k : Kernel) (ptr : ℕ) : List ℕ :=
  if ptr ≠ 0 ∧ (heapFree k.heap ptr).1 = true then [ptr] else []

/-- The pointers that `process_destroy` gives back: it frees the descriptors and then,
in the state behind the reparenting, the structure. -/
def destroyFrees (k : Kernel) (p exitCode : ℕ) : List ℕ :=
  if p = k.kernelIdleProcess then []
  else freed k (k.procs p).fd ++
    freed (processRemoveReadyQueue (reparentChildren (processRelease k p exitCode) p) p) p

/-- The fork of `p` in `k` and the destruction of its child `c` in `k₁` cancel out: the
bitmap is what it was, and every allocation has been freed. -/
structure Conserved (k : Kernel) (p : ℕ) (k₁ : Kernel) (c exitCode : ℕ) : Prop where
  bitmap : (processDestroy k₁ c exitCode).mmu.bitmap = k.mmu.bitmap
  heap : (forkAllocs k p).Subperm (destroyFrees k₁ c exitCode)

section Counting
variable {k k₁ : Kernel} {p c exitCode : ℕ}

theorem length_freed_le (k : Kernel) (ptr : ℕ) : (freed k ptr).length ≤ 1 := by
  rw [freed]
  split_ifs <;> simp

theorem freed_null (k : Kernel) : freed k 0 = [] := if_neg fun h => h.1 rfl

theorem freed_of_nil (h : k.heap = []) (ptr : ℕ) : freed k ptr = [] := by
  rw [freed, h]
  exact if_neg fun h => Bool.false_ne_true h.2

theorem length_destroyFrees_le (k : Kernel) (p exitCode : ℕ) :
    (destroyFrees k p exitCode).length ≤ if (k.procs p).fd = 0 then 1 else 2 := by
  have h1 := length_freed_le k (k.procs p).fd
  have h2 := length_freed_le
    (processRemoveReadyQueue (reparentChildren (processRelease k p exitCode) p) p) p
  rw [destroyFrees]
  split_ifs with hidle hfd hfd
  · simp
  · simp
  · rw [hfd, freed_null, List.nil_append]
    exact h2
  · rw [List.length_append]
    omega

/-- Nothing goes back to an empty heap. -/
theorem destroyFrees_of_nil (h : k.heap = []) (p exitCode : ℕ) : destroyFrees k p exitCode = [] := by
  have hrelease : (processRelease k p exitCode).heap = [] := by
    rw [processRelease, free]
    split_ifs
    · exact h
    · dsimp only [Kernel.setProc]
      rw [h]
      rfl
  have hremove : (processRemoveReadyQueue
      (reparentChildren (processRelease k p exitCode) p) p).heap = [] := by
    have hsame := (removeFrom_same (reparentChildren (processRelease k p exitCode) p) p 0
      ((reparentChildren (processRelease k p exitCode) p).nodes
        (reparentChildren (processRelease k p exitCode) p).readyQueue)).rest
    rw [processRemoveReadyQueue, (congrArg Kernel.heap hsame :), reparentChildren_eq]
    exact hrelease
  rw [destroyFrees, freed_of_nil h, freed_of_nil hremove]
  split_ifs <;> rfl

/-- The child of a fork has the descriptors that the fork allocated. -/
theorem processForkAt_fd (k : Kernel) {a : Allocated} (p pdt : ℕ) (h0 : a.node ≠ 0) :
    ((processForkAt k a p pdt).procs a.node).fd = a.fd := by
  rw [processForkAt, if_neg h0, processInherit_procs, Function.update_self]
  rw [Process.inherit, processCreateAt]
  dsimp only
  rw [(processAddReadyQueue_same _ a.node).field_eq Process.fd fun _ _ => rfl]
  dsimp only [processFill]
  rw [Function.update_self]
  rfl

theorem processForkAt_heap (k : Kernel) (a : Allocated) (p pdt : ℕ) :
    (processForkAt k a p pdt).heap = k.heap := by
  have hcreate : ∀ r : Registers, (processCreateAt k a r.eip r.useresp pdt false).heap = k.heap :=
    fun r => (congrArg Kernel.heap (processAddReadyQueue_same _ a.node).rest :)
  rw [processForkAt]
  split_ifs
  · exact hcreate _
  · exact hcreate _

/-- A fork allocates more than the destruction of the child frees. -/
theorem length_destroyFrees_lt (exitCode : ℕ) (hend : k.mmu.kernelEnd % 4096 = 0)
    (hfork : processFork k p = some (c, k₁)) (hc : c ≠ 0) :
    (destroyFrees k₁ c exitCode).length < (forkAllocs k p).length := by
  obtain ⟨⟨a, k'⟩, halloc, heq⟩ := Option.map_eq_some_iff.mp hfork
  obtain ⟨rfl, rfl⟩ := Prod.mk.inj heq
  rw [forkAllocs, halloc, Option.elim_some]
  have hnode : a.node ≠ 0 := hc
  by_cases hsig : a.sigHandles = 0
  · have hheap : k'.heap = [] :=
      processAllocate_sigHandles (by rw [mmuClonePdt_kernelEnd, hend]) halloc hsig
    rw [destroyFrees_of_nil (by rw [processForkAt_heap, hheap])]
    simp [hnode]
  · have hle := length_destroyFrees_le
      (processForkAt k' a p (mmuClonePdt k.mmu (k.procs p).pdt).1) a.node exitCode
    rw [processForkAt_fd k' p _ hnode] at hle
    by_cases hfd : a.fd = 0
    · rw [if_pos hfd] at hle
      simp [hnode, hfd, hsig]
      omega
    · rw [if_neg hfd] at hle
      simp [hnode, hfd, hsig]
      omega

/-- A fork whose child is destroyed is never undone. -/
theorem fork_not_undone (hend : k.mmu.kernelEnd % 4096 = 0)
    (hfork : processFork k p = some (c, k₁)) (hc : c ≠ 0) : ¬ Conserved k p k₁ c exitCode := by
  intro h
  have hlt := length_destroyFrees_lt exitCode hend hfork hc
  have hle := h.heap.length_le
  omega

end Counting

/-! ### A fork that succeeds -/

section Room
variable {k : Kernel} {l r : Heap} {addr size x : ℕ}

/-- A heap with enough free cells gives `process_fork` what it asks for. -/
theorem processFork_filled (h : HeapFilledTo k.heap l addr size x r) (hx : 2 ≤ x)
    (hroom : 16 * (x + processCells) ≤ size - 20) (htop : addr + size ≤ word32) (p : ℕ) :
    ∃ c k₁, processFork k p = some (c, k₁) ∧ c ≠ 0 := by
  obtain ⟨heap, fd, sig, halloc, -, -⟩ := processAllocate_filled
    (k := { k with mmu := (mmuClonePdt k.mmu (k.procs p).pdt).2 }) h hx hroom htop
  refine ⟨addr + 20 + 16 * x, _, Option.map_eq_some_iff.mpr ⟨_, halloc, rfl⟩, ?_⟩
  omega

end Room

/-- Two processes with the directory at `0x500000`, and a heap of one block whose frames
are the 256 before it. -/
def roomyKernel : Kernel := { twoProcesses with
  heap := heapAddBlock [] 0xc0400000 1048576 16
  mmu := { twoProcesses.mmu with
    bitmap := ⟨0x400000, 2048, fun i => if i < 8 then BitVec.allOnes 32 else if i = 8 then 1 else 0⟩ }
  procs := fun p => { twoProcesses.procs p with pdt := 0x500000 } }

theorem roomyKernel_fork : ∃ c k₁, processFork roomyKernel 16 = some (c, k₁) ∧ c ≠ 0 := by
  have hfilled := heapAddBlock_filled [] (show 0xc0400000 ≠ 0 by decide)
  exact processFork_filled (k := roomyKernel) hfilled (by decide) (by decide) (by decide) 16

theorem roomyKernel_fork_not_undone : ∃ c k₁, processFork roomyKernel 16 = some (c, k₁) ∧ c ≠ 0 ∧
    ¬ Conserved roomyKernel 16 k₁ c 0 := by
  obtain ⟨c, k₁, hfork, hc⟩ := roomyKernel_fork
  exact ⟨c, k₁, hfork, hc, fork_not_undone (by decide) hfork hc⟩

/-- The table of signal handlers of the child stays allocated. -/
theorem fork_leaks_sig_handles : ¬ ∀ (k k₁ : Kernel) (p c exitCode : ℕ),
    k.mmu.kernelEnd % 4096 = 0 → processFork k p = some (c, k₁) → c ≠ 0 →
      Conserved k p k₁ c exitCode := by
  intro h
  obtain ⟨c, k₁, hfork, hc⟩ := roomyKernel_fork
  have hlt := length_destroyFrees_lt (k := roomyKernel) 0 (by decide) hfork hc
  have hle := (h roomyKernel k₁ 16 c 0 (by decide) hfork hc).heap.length_le
  omega

end DosKernel
