import DosKernel.Fs.Paths
import DosKernel.Paging.Copying
import DosKernel.Process.Aligned

/-! `process_execve`. The file system is called through function pointers: what they
return is a function of the directory and the index, and what else they do to the kernel
is a parameter. -/

namespace DosKernel

open Lib Vfs

def enoexec : ℤ := 8

def sizeofFile : ℕ := 312

def Mmu.view (s : Mmu) : Memory := fun v => UInt8.ofNat (mmuReadb s.mem s.currentPdt v)

/-- What `fs->readdir` and `fs->read` do to the kernel; `read` also returns the number of
bytes or an error. -/
structure FsCalls where
  readdir : Kernel → Mount → (dir : Stat) → (index : ℕ) → Kernel
  read : Kernel → Mount → Stat → (buf count : ℕ) → ℤ × Kernel

/-! ### Finding and loading the file -/

/-- The inner loop of `vfs_stat`. -/
def findEntryCall (fs : FsCalls) (m : Mount) (dir : Stat) (filename : List Char) :
    (passes i : ℕ) → Kernel → Except ℤ Stat × Kernel
  | 0, _, k => (.error (-enoent), k)
  | passes + 1, i, k =>
    match m.fs.readdir dir i with
    | .error e => (.error e, fs.readdir k m dir i)
    | .ok (name, st) =>
      if m.fs.sameName name filename then (.ok st, fs.readdir k m dir i)
      else findEntryCall fs m dir filename passes (i + 1) (fs.readdir k m dir i)

/-- The outer loop of `vfs_stat`. -/
def walkPathCall (fs : FsCalls) (mounts : List Mount) :
    (passes : ℕ) → Walk → (filename last : Option (List Char)) → Kernel → Except ℤ Walk × Kernel
  | 0, s, _, _, k => (.ok s, k)
  | passes + 1, s, filename, last, k =>
    match filename with
    | none => (.ok s, k)
    | some name =>
      if name = [] then (.ok s, k)
      else
        let r := findEntryCall fs s.mount s.dir name (s.mount.fs.size s.dir + 1) 0 k
        match r.1 with
        | .error e => (.error e, r.2)
        | .ok st =>
          let token := strtok none last '/'
          walkPathCall fs mounts passes (s.found mounts st) token.1 token.2 r.2

def strdup (k : Kernel) (str : List Char) : Option (ℕ × Kernel) :=
  malloc k ((str.length + 1) % word32)

/-- `vfs_stat` with what it does to the kernel; `none` when the copy of the path is at `NULL`
and the code goes on in it. -/
def vfsStatCall (k : Kernel) (fs : FsCalls) (rootMount : Option Mount) (mounts : List Mount)
    (path : Option (List Char)) : Option (Except ℤ (Option Mount × Stat) × Kernel) :=
  match rootMount, path with
  | none, _ => some (.error (-enodev), k)
  | some _, none => some (.error (-einval), k)
  | some root, some path =>
    if path = [] then some (.error (-einval), k)
    else if path = ['/'] then some (.ok (none, root.rootdir), k)
    else
      (strdup k path).bind fun fn =>
        if fn.1 = 0 then none
        else
          let token := strtok (some (if path.head? = some '/' then path.tail else path)) none '/'
          (calloc fn.2 1 sizeofFile).map fun f =>
            if f.1 = 0 then (.error (-enomem), free f.2 fn.1)
            else
              let r := walkPathCall fs mounts (path.length + 1) ⟨root, root.rootdir, root.rootdir⟩
                token.1 token.2 f.2
              (r.1.map fun s => (some s.mount, s.st), free (free r.2 f.1) fn.1)

def vfsLoadFile (k : Kernel) (fs : FsCalls) (mount : Mount) (st : Stat) : Option (ℕ × Kernel) :=
  (mallocAlign k (st.size % word32) bitmapPageSize).map fun addr =>
    let r := fs.read addr.2 mount st addr.1 (st.size % word32)
    if r.1 < 0 then (0, free r.2 addr.1) else (addr.1, r.2)

/-! ### The new address space -/

/-- `elf32_program_header`, as far as it is used. -/
structure ProgramHeader where
  type : ℕ
  offset : ℕ
  virtualAddress : ℕ
  fileSize : ℕ
  memorySize : ℕ

def programHeader (s : Mmu) (ph : ℕ) : ProgramHeader where
  type := s.view.load ph 4
  offset := s.view.load (ph + 4) 4
  virtualAddress := s.view.load (ph + 8) 4
  fileSize := s.view.load (ph + 16) 4
  memorySize := s.view.load (ph + 20) 4

def elfPtLoad : ℕ := 1

def elfArchX86 : ℕ := 1

def ProgramHeader.pages (h : ProgramHeader) : ℕ :=
  ((h.virtualAddress + h.memorySize + word32 - 1) % word32 / bitmapPageSize + word32 -
    h.virtualAddress / bitmapPageSize + 1) % word32

/-- The body of the loop over the program headers; the file is at `addr`. -/
def mapSegment (s : Mmu) (pd addr ph : ℕ) : Mmu :=
  let h := programHeader s ph
  if h.type = elfPtLoad then
    mmuMapPages s pd (mmuGetPhysicalAddressPdt s.mem ((addr + h.offset) % word32) s.currentPdt)
      h.virtualAddress h.pages true true
  else s

/-- The loop; `program_header_count` is read again before each pass. -/
def mapSegments (pd addr : ℕ) : (passes i ph : ℕ) → Mmu → Mmu
  | 0, _, _, s => s
  | passes + 1, i, ph, s =>
    if i ≤ s.view.load (addr + 44) 2 then
      mapSegments pd addr passes (i + 1) ((ph + 32) % word32) (mapSegment s pd addr ph)
    else s

/-- The new directory, the frames of the stack, and the state after the segments, the stack
and the pages for the heap of the program were mapped. -/
def execImage (s : Mmu) (addr : ℕ) : ℕ × ℕ × Mmu :=
  let pd := mmuNewPageDirectory s
  let stack := bitmapAllocContiguousPages pd.2.bitmap 2
  let s := { pd.2 with bitmap := stack.2 }
  let ph := (addr + s.view.load (addr + 28) 4) % word32
  let s := mapSegments pd.1 addr 65536 1 ph s
  let s := mmuMapPages s pd.1 stack.1 0xbfffe000 2 true true
  let heap := bitmapAllocContiguousPages s.bitmap 1024
  (pd.1, stack.1, mmuMapPages { s with bitmap := heap.2 } pd.1 heap.1 0xc00000 1024 true true)

/-- The loop that copies a vector of strings out of the directory `old`: the pointers to
`page` and the strings to `strs`, where the program finds them from `virt` on. It returns the
number of strings; `none` when it does not end. -/
def copyStrings (old vec page strs virt : ℕ) : (fuel i next : ℕ) → Memory → Option (ℕ × Memory)
  | 0, _, _, _ => none
  | fuel + 1, i, next, m =>
    let addr := mmuReadl m old ((vec + 4 * i) % word32)
    if addr = 0 then some (i, m)
    else
      let m := m.store (page + 4 * i) 4 ((virt + next) % word32)
      (mmuStrlen m old addr).bind fun len =>
        if len = 0 then some (i, m)
        else
          (mmuStrncpy m old addr ((strs + next) % word32) len).bind fun m =>
            copyStrings old vec page strs virt fuel (i + 1) (next + len + 1) m

/-- The part of `process_execve` that passes a vector: two frames, mapped at `virt` and at the
next page and cleared, and the copy into them. -/
def execVector (s : Mmu) (old pd vec virt : ℕ) : Option (ℕ × Mmu) :=
  let page := bitmapAllocPage s.bitmap
  let strs := bitmapAllocPage page.2
  let s := mmuMapPages { s with bitmap := strs.2 } pd page.1 virt 1 true true
  let s := mmuMapPages s pd strs.1 (virt + bitmapPageSize) 1 true true
  let mem := (s.mem.fill page.1 4096 0).fill strs.1 4096 0
  (copyStrings old vec page.1 strs.1 (virt + bitmapPageSize) 2147483648 0 0 mem).map fun r =>
    (r.1, { s with mem := r.2 })

/-- What is done once everything is copied. -/
def execReplace (k : Kernel) (p addr pd stack argc : ℕ) : Kernel :=
  let old := (k.procs p).pdt
  let s := mmuFreePages (mmuCopyKernelPages k.mmu pd) old 0 (768 * 1024)
  let s := { s with bitmap := bitmapFreePages s.bitmap old 1 }
  let mem := s.mem.store (stack + 4 * 2047) 4 0xb02000
  let mem := mem.store (stack + 4 * 2046) 4 0xb00000
  let mem := mem.store (stack + 4 * 2045) 4 argc
  { k.setProc p fun q => { q with
      r := { q.r with eip := s.view.load (addr + 24) 4, ebp := 0xbffffffe, useresp := 0xbffffff0 }
      pdt := pd } with
    mmu := { s with mem := mem } }

/-- The branch of `process_execve` for an ELF file at `addr`. -/
def execElf (k : Kernel) (p addr argv envp : ℕ) : Option Kernel :=
  let image := execImage k.mmu addr
  let old := (k.procs p).pdt
  (execVector image.2.2 old image.1 argv 0xb00000).bind fun args =>
    (execVector args.2 old image.1 envp 0xb02000).map fun env =>
      execReplace { k with mmu := env.2 } p addr image.1 image.2.1 args.1

/-- `memcmp(header->magic, elf_magic, 4)` is 0. -/
def isElf (s : Mmu) (addr : ℕ) : Bool := s.view.load addr 4 = 0x464c457f

/-- `process_execve`: the value it returns and the state. It is `none` when the code does not
come to an end, and where it goes on at `NULL` or with a `mount` that was not set. -/
def processExecve (k : Kernel) (fs : FsCalls) (rootMount : Option Mount) (mounts : List Mount)
    (p : ℕ) (path : Option (List Char)) (argv envp : ℕ) : Option (ℤ × Kernel) :=
  (vfsStatCall k fs rootMount mounts path).bind fun stat =>
    match stat.1 with
    | .error e => some (e, stat.2)
    | .ok (none, _) => none
    | .ok (some mount, st) =>
      (vfsLoadFile stat.2 fs mount st).bind fun file =>
        if file.1 = 0 then some (-enomem, file.2)
        else if isElf file.2.mmu file.1 = false then some (-enoexec, file.2)
        else if file.2.mmu.view.load (file.1 + 6) 1 = elfArchX86 then
          (execElf file.2 p file.1 argv envp).map fun k => (0, k)
        else some (-enoexec, file.2)

/-! ### The calls find what the walk finds -/

section Found
variable {fs : FsCalls} {mounts : List Mount} {k : Kernel}

theorem findEntryCall_fst (fs : FsCalls) (k : Kernel) (m : Mount) (dir : Stat) (filename : List Char)
    (passes i : ℕ) :
    (findEntryCall fs m dir filename passes i k).1 = findEntry m.fs dir filename passes i := by
  induction passes generalizing i k with
  | zero => rfl
  | succ passes ih =>
    rw [findEntryCall, findEntry]
    rcases m.fs.readdir dir i with e | ⟨name, st⟩
    · rfl
    · dsimp only
      split_ifs
      · rfl
      · exact ih _ (i + 1)

theorem walkPathCall_fst (passes : ℕ) (s : Walk) (filename last : Option (List Char)) :
    (walkPathCall fs mounts passes s filename last k).1 =
      walkPath mounts passes s filename last := by
  induction passes generalizing s filename last k with
  | zero => rfl
  | succ passes ih =>
    rcases filename with _ | name
    · rfl
    simp only [walkPathCall, walkPath]
    split_ifs
    · rfl
    rw [Walk.visit, ← findEntryCall_fst fs k]
    generalize findEntryCall fs s.mount s.dir name (s.mount.fs.size s.dir + 1) 0 k = r
    rcases r.1 with e | st
    · rfl
    · exact ih _ _ _

/-- `vfs_stat` returns what the walk along the path gives. -/
theorem vfsStatCall_fst {root : Option Mount} {path : Option (List Char)}
    {r : Except ℤ (Option Mount × Stat) × Kernel}
    (h : vfsStatCall k fs root mounts path = some r) :
    ∃ allocated, r.1 = vfsStat root mounts allocated path := by
  unfold vfsStatCall at h
  unfold vfsStat
  rcases root with _ | root
  · obtain rfl := Option.some.inj h
    exact ⟨true, rfl⟩
  rcases path with _ | path
  · obtain rfl := Option.some.inj h
    exact ⟨true, rfl⟩
  dsimp only at h ⊢
  generalize strtok _ none '/' = token at h ⊢
  split_ifs at h ⊢
  · obtain rfl := Option.some.inj h
    exact ⟨true, rfl⟩
  · obtain rfl := Option.some.inj h
    exact ⟨true, rfl⟩
  obtain ⟨fn, -, h⟩ := Option.bind_eq_some_iff.mp h
  split_ifs at h
  obtain ⟨f, -, rfl⟩ := Option.map_eq_some_iff.mp h
  split_ifs
  · exact ⟨false, rfl⟩
  · refine ⟨true, ?_⟩
    simp only [walkPathCall_fst]
    rfl

end Found

end DosKernel
