import DosKernel.Heap.Runs
import DosKernel.Paging.Release
import DosKernel.Process.Table

/-! The life of a process: the kernel allocator, `process_create`, `process_fork` and
`process_destroy`. What `process_create` writes is a function of its own that takes
the three addresses it got from `calloc`. -/

namespace DosKernel

def sizeofProcess : ℕ := 556

def sizeofFileDescriptor : ℕ := 668

def nsig : ℕ := 32

def sigDfl : ℕ := 2

def minMallocSize : ℕ := 16

/-! ### The kernel allocator -/

/-- The byte of memory at a virtual address of the kernel. -/
def Kernel.peek (k : Kernel) (v : ℕ) : UInt8 :=
  UInt8.ofNat (mmuReadb k.mmu.mem k.mmu.currentPdt v)

/-- The loop of `malloc` that doubles the number of pages; it ends at 4096 pages. -/
def growPages (size : ℕ) : (fuel pages : ℕ) → ℕ
  | 0, pages => pages
  | fuel + 1, pages =>
    if pages * bitmapPageSize < size ∧ pages < 4096 then growPages size fuel (2 * pages) else pages

/-- The part of `malloc` behind a failed `heap_alloc`: the heap gets a new block. -/
def mallocGrow (k : Kernel) (size : ℕ) : Option (ℕ × Kernel) :=
  let pages := growPages size 4 256
  if 4096 ≤ pages then some (0, k)
  else
    (mmuAllocPages k.mmu pages).map fun block =>
      let k := { k with mmu := block.2 }
      let r := heapAlloc k.peek (heapAddBlock k.heap block.1 (pages * bitmapPageSize) 16) size
      (r.1, { k with heap := r.2 })

/-- `malloc`; `none` when the search of `mmu_alloc_pages` does not end. -/
def malloc (k : Kernel) (size : ℕ) : Option (ℕ × Kernel) :=
  if size = 0 then some (0, k)
  else
    let size := max size minMallocSize
    let r := heapAlloc k.peek k.heap size
    let k := { k with heap := r.2 }
    if r.1 = 0 then mallocGrow k size else some (r.1, k)

/-- `calloc`. What the zeroed memory holds is set where it is given a type. -/
def calloc (k : Kernel) (num size : ℕ) : Option (ℕ × Kernel) := malloc k (num * size % word32)

/-- The ways through `malloc`: nothing is asked for, the heap has room, the request is too
large, or the heap gets a new block. -/
inductive Mallocs (k : Kernel) (size : ℕ) : ℕ → Kernel → Prop
  | nothing (hsize : size = 0) : Mallocs k size 0 k
  | found (hsize : size ≠ 0) (hroom : (heapAlloc k.peek k.heap (max size minMallocSize)).1 ≠ 0) :
    Mallocs k size (heapAlloc k.peek k.heap (max size minMallocSize)).1
      { k with heap := (heapAlloc k.peek k.heap (max size minMallocSize)).2 }
  | large (hsize : size ≠ 0) (hfull : (heapAlloc k.peek k.heap (max size minMallocSize)).1 = 0)
      (hpages : 4096 ≤ growPages (max size minMallocSize) 4 256) :
    Mallocs k size 0 { k with heap := (heapAlloc k.peek k.heap (max size minMallocSize)).2 }
  | grown (hsize : size ≠ 0) (hfull : (heapAlloc k.peek k.heap (max size minMallocSize)).1 = 0)
      {pages : ℕ} (hpages : growPages (max size minMallocSize) 4 256 = pages) (hlt : pages < 4096)
      {a : ℕ} {m : Mmu} (halloc : mmuAllocPages k.mmu pages = some (a, m)) {peek : ℕ → UInt8}
      {h : Heap}
      (hblock : heapAddBlock (heapAlloc k.peek k.heap (max size minMallocSize)).2 a
        (pages * bitmapPageSize) 16 = h) :
    Mallocs k size (heapAlloc peek h (max size minMallocSize)).1
      { k with mmu := m, heap := (heapAlloc peek h (max size minMallocSize)).2 }

theorem malloc_cases {k k' : Kernel} {size ptr : ℕ} (h : malloc k size = some (ptr, k')) :
    Mallocs k size ptr k' := by
  rw [malloc] at h
  split_ifs at h with hsize
  · obtain ⟨rfl, rfl⟩ := Prod.mk.inj (Option.some.inj h)
    exact .nothing hsize
  dsimp only at h
  split_ifs at h with hfull
  · rw [mallocGrow] at h
    dsimp only at h
    split_ifs at h with hpages
    · obtain ⟨rfl, rfl⟩ := Prod.mk.inj (Option.some.inj h)
      exact .large hsize hfull hpages
    · obtain ⟨⟨a, m⟩, halloc, hblock⟩ := Option.map_eq_some_iff.mp h
      obtain ⟨rfl, rfl⟩ := Prod.mk.inj hblock
      exact .grown hsize hfull rfl (by omega) halloc rfl
  · obtain ⟨rfl, rfl⟩ := Prod.mk.inj (Option.some.inj h)
    exact .found hsize hfull

/-- What an allocation may change: the heap and, when it grows, the pages of the kernel. -/
theorem malloc_frame {k k' : Kernel} {size ptr : ℕ} (h : malloc k size = some (ptr, k')) :
    { k' with heap := k.heap, mmu := k.mmu } = k := by
  cases malloc_cases h <;> rfl

theorem malloc_lt {k k' : Kernel} {size ptr : ℕ} (h : malloc k size = some (ptr, k')) :
    ptr < word32 := by
  cases malloc_cases h with
  | nothing => decide
  | found => exact heapAlloc_lt _ _
  | large => decide
  | grown => exact heapAlloc_lt _ _

def free (k : Kernel) (ptr : ℕ) : Kernel :=
  if ptr = 0 then k else { k with heap := (heapFree k.heap ptr).2 }

section Free
variable (k : Kernel) (ptr : ℕ)

@[simp] theorem free_procs : (free k ptr).procs = k.procs := by
  unfold free
  split_ifs <;> rfl

@[simp] theorem free_next : (free k ptr).next = k.next := by
  funext p
  rw [Kernel.next, free_procs, Kernel.next]

@[simp] theorem free_mmu : (free k ptr).mmu = k.mmu := by
  unfold free
  split_ifs <;> rfl

@[simp] theorem free_readyQueue : (free k ptr).readyQueue = k.readyQueue := by
  unfold free
  split_ifs <;> rfl

theorem free_frame : { free k ptr with heap := k.heap } = k := by
  unfold free
  split_ifs <;> rfl

end Free

/-! ### Creation -/

/-- The addresses that `process_create` gets from `calloc`. -/
structure Allocated where
  node : ℕ
  fd : ℕ
  sigHandles : ℕ

/-- The process structure that `process_create` writes at `a.node`. A null pointer is
written through as any other; only memory that `calloc` returned is zeroed. -/
def newProcess (k : Kernel) (a : Allocated) (entry stackBase pdt : ℕ) : Process :=
  let old := if a.node = 0 then k.procs 0 else Process.zero
  { old with
    pid := k.nextPid
    state := .ready
    pdt := pdt
    fdCount := 256
    fd := a.fd
    sigHandles := a.sigHandles
    cwd := k.rootIno
    r := { old.r with
      cs := 27, ds := 35, es := 35, fs := 35, gs := 35
      eip := entry, useresp := stackBase, ebp := stackBase } }

/-- What `process_create` does before it puts the process into the queue. -/
def processFill (k : Kernel) (a : Allocated) (entry stackBase pdt : ℕ) (switchTo : Bool) : Kernel :=
  { k with
    nextPid := (k.nextPid + 1) % word32
    procs := Function.update k.procs a.node (newProcess k a entry stackBase pdt)
    files := if a.fd = 0 then k.files else Function.update k.files a.fd fun _ => .zero
    handlers := Function.update k.handlers a.sigHandles fun i =>
      if i < nsig then sigDfl else k.handlers a.sigHandles i
    currentProcess := if switchTo then a.node else k.currentProcess }

/-- `process_create` behind its allocations. -/
def processCreateAt (k : Kernel) (a : Allocated) (entry stackBase pdt : ℕ) (switchTo : Bool) :
    Kernel :=
  processAddReadyQueue (processFill k a entry stackBase pdt switchTo) a.node

/-- The allocations of `process_create`. -/
def processAllocate (k : Kernel) : Option (Allocated × Kernel) :=
  (calloc k 1 sizeofProcess).bind fun node =>
    (calloc node.2 256 sizeofFileDescriptor).bind fun fd =>
      (calloc fd.2 nsig 4).map fun sig => (⟨node.1, fd.1, sig.1⟩, sig.2)

theorem processAllocate_frame {k k' : Kernel} {a : Allocated}
    (h : processAllocate k = some (a, k')) : { k' with heap := k.heap, mmu := k.mmu } = k := by
  obtain ⟨node, hnode, h⟩ := Option.bind_eq_some_iff.mp h
  obtain ⟨fd, hfd, h⟩ := Option.bind_eq_some_iff.mp h
  obtain ⟨sig, hsig, h⟩ := Option.map_eq_some_iff.mp h
  obtain ⟨-, rfl⟩ := Prod.mk.inj h
  rw [← malloc_frame hnode, ← malloc_frame hfd, ← malloc_frame hsig]

theorem processAllocate_node_lt {k k' : Kernel} {a : Allocated}
    (h : processAllocate k = some (a, k')) : a.node < word32 := by
  obtain ⟨node, hnode, h⟩ := Option.bind_eq_some_iff.mp h
  obtain ⟨fd, -, h⟩ := Option.bind_eq_some_iff.mp h
  obtain ⟨sig, -, h⟩ := Option.map_eq_some_iff.mp h
  obtain ⟨rfl, -⟩ := Prod.mk.inj h
  exact malloc_lt hnode

def processCreate (k : Kernel) (entry stackBase pdt : ℕ) (switchTo : Bool) :
    Option (ℕ × Kernel) :=
  (processAllocate k).map fun a =>
    (a.1.node, processCreateAt a.2 a.1 entry stackBase pdt switchTo)

/-! ### Fork -/

/-- The fields that `process_fork` copies into the child `c` from its parent at `p`. -/
def Process.inherit (c parent : Process) (p : ℕ) : Process :=
  { c with
    parent := p
    uid := parent.uid
    gid := parent.gid
    euid := parent.euid
    egid := parent.egid
    cwd := parent.cwd
    r := parent.r }

/-- What `process_fork` does with the child. -/
def processInherit (k : Kernel) (p child : ℕ) : Kernel :=
  let fd := (k.procs child).fd
  { k.setProc child (·.inherit (k.procs p) p) with
    files := Function.update k.files fd fun i =>
      if i < 256 then k.files (k.procs p).fd i else k.files fd i }

theorem processInherit_procs (k : Kernel) (p child : ℕ) : (processInherit k p child).procs =
    Function.update k.procs child ((k.procs child).inherit (k.procs p) p) := rfl

/-- `process_fork` behind its allocations. -/
def processForkAt (k : Kernel) (a : Allocated) (p pdt : ℕ) : Kernel :=
  let r := (k.procs p).r
  let k := processCreateAt k a r.eip r.useresp pdt false
  if a.node = 0 then k else processInherit k p a.node

def processFork (k : Kernel) (p : ℕ) : Option (ℕ × Kernel) :=
  let clone := mmuClonePdt k.mmu (k.procs p).pdt
  (processAllocate { k with mmu := clone.2 }).map fun a =>
    (a.1.node, processForkAt a.2 a.1 p clone.1)

/-! ### Destruction -/

/-- The loop of `process_destroy` that gives the children of `p` to its parent. -/
def reparentChildren (k : Kernel) (p : ℕ) : Kernel :=
  (k.nodes k.readyQueue).foldl (fun k node =>
    if (k.procs node).parent = p then
      k.setProc node ({ · with parent := (k.procs p).parent })
    else k) k

/-- The first part of `process_destroy`: the process becomes a zombie, its address
space is given back and its descriptors are closed and freed. -/
def processRelease (k : Kernel) (p exitCode : ℕ) : Kernel :=
  let proc := k.procs p
  free { k.setProc p ({ · with state := .zombie, exitCode := exitCode }) with
    mmu := releaseAddressSpace k.mmu proc.pdt
    files := Function.update k.files proc.fd fun i =>
      if i < proc.fdCount then { k.files proc.fd i with used := false }
      else k.files proc.fd i } proc.fd

def processDestroy (k : Kernel) (p exitCode : ℕ) : Kernel :=
  if p = k.kernelIdleProcess then k
  else free (processRemoveReadyQueue (reparentChildren (processRelease k p exitCode) p) p) p

theorem processRelease_procs (k : Kernel) (p exitCode : ℕ) :
    (processRelease k p exitCode).procs =
      Function.update k.procs p { k.procs p with state := .zombie, exitCode := exitCode } := by
  rw [processRelease, free_procs, Kernel.setProc]

theorem processRelease_mmu (k : Kernel) (p exitCode : ℕ) :
    (processRelease k p exitCode).mmu = releaseAddressSpace k.mmu (k.procs p).pdt := by
  rw [processRelease, free_mmu]

theorem processRelease_frame (k : Kernel) (p exitCode : ℕ) :
    { processRelease k p exitCode with
      mmu := k.mmu, heap := k.heap, files := k.files, procs := k.procs } = k := by
  rw [processRelease, free]
  split_ifs <;> rfl

end DosKernel
