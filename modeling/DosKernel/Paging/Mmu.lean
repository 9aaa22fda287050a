import DosKernel.Lib.Loop
import DosKernel.Lib.Memory
import DosKernel.Frames.Bitmap

/-! The page tables of the kernel and the functions of `mmu.c` that read and
write them. Directories, tables and pages lie in physical memory, which the
kernel reaches at the same virtual addresses. -/

namespace DosKernel

open Lib

/-- `page_directory` and `page`: both have the same first bits and the address in
the last twenty; `flags` are the nine bits between. -/
structure PageEntry where
  present : Bool
  rw : Bool
  user : Bool
  flags : BitVec 9
  address : BitVec 20
  deriving DecidableEq

namespace PageEntry

def ofWord (w : ℕ) : PageEntry where
  present := w % 2 = 1
  rw := w / 2 % 2 = 1
  user := w / 4 % 2 = 1
  flags := BitVec.ofNat 9 (w / 8)
  address := BitVec.ofNat 20 (w / 4096)

def toWord (e : PageEntry) : ℕ :=
  e.present.toNat + 2 * e.rw.toNat + 4 * e.user.toNat + 8 * e.flags.toNat +
    4096 * e.address.toNat

/-- `address << 12`. -/
def frame (e : PageEntry) : ℕ := e.address.toNat * 4096

/-- `address = (uint32_t)ptr >> 12`. -/
def withFrame (e : PageEntry) (ptr : ℕ) : PageEntry :=
  { e with address := BitVec.ofNat 20 (ptr / 4096) }

/-- The assignments of `mmu_map_pages` to an entry. -/
def mapTo (e : PageEntry) (rw user : Bool) (ptr : ℕ) : PageEntry :=
  { e with present := true, rw := rw, user := user, address := BitVec.ofNat 20 (ptr / 4096) }

/-- The assignments of `mmu_unmap_pages` to an entry. -/
def unmap (e : PageEntry) : PageEntry :=
  { e with present := false, rw := false, user := false, address := 0 }

end PageEntry

def entryAt (m : Memory) (a : ℕ) : PageEntry := .ofWord (m.load a 4)

def setEntry (m : Memory) (a : ℕ) (e : PageEntry) : Memory := m.store a 4 e.toWord

/-- `virt_addr >> 22`. -/
def pdIndex (v : ℕ) : ℕ := v / 4194304

/-- `(virt_addr >> 12) & 0x3FF`. -/
def ptIndex (v : ℕ) : ℕ := v / 4096 % 1024

/-- `virt_addr & 0xFFF`. -/
def pageOffset (v : ℕ) : ℕ := v % 4096

/-- The walk that starts every function below: the page entry of `v`, when it
and its directory entry are present. -/
def pageOf (m : Memory) (pdt v : ℕ) : Option PageEntry :=
  let pd := entryAt m (pdt + 4 * pdIndex v)
  if pd.present then
    let p := entryAt m (pd.frame + 4 * ptIndex v)
    if p.present then some p else none
  else none

theorem pageOf_same {m : Memory} {pdt v v' : ℕ} (h : v / 4096 = v' / 4096) :
    pageOf m pdt v = pageOf m pdt v' := by
  have hd : pdIndex v = pdIndex v' := by
    unfold pdIndex
    omega
  have ht : ptIndex v = ptIndex v' := by rw [ptIndex, ptIndex, h]
  rw [pageOf, pageOf, hd, ht]

def mmuGetPhysicalAddressPdt (m : Memory) (v pdt : ℕ) : ℕ :=
  (pageOf m pdt v).elim 0 fun p => p.frame + pageOffset v

def mmuIsMapped (m : Memory) (pdt v : ℕ) : Bool := (pageOf m pdt v).isSome

/-- A write of `n` bytes at a virtual address. Only the page of the first byte is
looked up. -/
def mmuWrite (n : ℕ) (m : Memory) (pdt v data : ℕ) : Memory :=
  (pageOf m pdt v).elim m fun p => m.store (p.frame + pageOffset v) n data

def mmuWritew : Memory → ℕ → ℕ → ℕ → Memory := mmuWrite 2

def mmuWritel : Memory → ℕ → ℕ → ℕ → Memory := mmuWrite 4

/-- A read of `n` bytes at a virtual address. -/
def mmuRead (n : ℕ) (m : Memory) (pdt v : ℕ) : ℕ :=
  (pageOf m pdt v).elim 0 fun p => m.load (p.frame + pageOffset v) n

def mmuReadb : Memory → ℕ → ℕ → ℕ := mmuRead 1

def mmuReadw : Memory → ℕ → ℕ → ℕ := mmuRead 2

def mmuReadl : Memory → ℕ → ℕ → ℕ := mmuRead 4

/-- Physical memory, the frame bitmap and the static variables of `mmu.c`. -/
structure Mmu where
  mem : Memory
  bitmap : Bitmap
  kernelEnd : ℕ
  kernelPdt : ℕ
  currentPdt : ℕ

/-- `bitmap_alloc_page` followed by `memset` of the page, which is not skipped
when there is no page. -/
def allocZeroed (s : Mmu) : ℕ × Mmu :=
  let r := bitmapAllocPage s.bitmap
  (r.1, { s with bitmap := r.2, mem := s.mem.fill r.1 4096 0 })

def mmuNewPageDirectory (s : Mmu) : ℕ × Mmu := allocZeroed s

/-- The body of the loop of `mmu_map_pages`. -/
def mapPage (s : Mmu) (pdt realAddr virtAddr : ℕ) (rw user : Bool) : Mmu :=
  let pda := pdt + 4 * pdIndex virtAddr
  let pd := entryAt s.mem pda
  let r := if pd.present then (pd.frame, s) else allocZeroed s
  let mem := setEntry r.2.mem pda ((entryAt r.2.mem pda).mapTo rw user r.1)
  let pa := r.1 + 4 * ptIndex virtAddr
  { r.2 with mem := setEntry mem pa ((entryAt mem pa).mapTo rw user realAddr) }

/-- `mmu_map_pages`. The argument `executable` is not used by the code. -/
def mmuMapPages (s : Mmu) (pdt realAddr virtAddr : ℕ) : (len : ℕ) → (rw user : Bool) → Mmu
  | 0, _, _ => s
  | len + 1, rw, user =>
    mmuMapPages (mapPage s pdt realAddr virtAddr rw user) pdt
      ((realAddr + bitmapPageSize) % word32) ((virtAddr + bitmapPageSize) % word32) len rw user

/-- The body of the loop of `mmu_unmap_pages`. -/
def unmapPage (s : Mmu) (pdt virtAddr : ℕ) : Mmu :=
  let pd := entryAt s.mem (pdt + 4 * pdIndex virtAddr)
  if pd.present then
    let pa := pd.frame + 4 * ptIndex virtAddr
    { s with mem := setEntry s.mem pa (entryAt s.mem pa).unmap }
  else s

def mmuUnmapPages (s : Mmu) (pdt virtAddr : ℕ) : (len : ℕ) → Mmu
  | 0 => s
  | len + 1 => mmuUnmapPages (unmapPage s pdt virtAddr) pdt ((virtAddr + bitmapPageSize) % word32) len

/-- The search of `mmu_alloc_pages`: `pages` unmapped pages from `addr` on. -/
def rangeUnmapped (m : Memory) (pdt addr pages : ℕ) : Bool :=
  (List.range pages).all fun i => !mmuIsMapped m pdt ((addr + i * bitmapPageSize) % word32)

/-- The outer loop of that search. `NULL` stands for "not found"; the address
wraps, so the loop does not end when it comes back to where it began. -/
def searchPages (m : Memory) (pdt pages : ℕ) : (fuel addr : ℕ) → Option ℕ
  | 0, _ => none
  | fuel + 1, addr =>
    if addr < 0xFFFFFFFF then
      if rangeUnmapped m pdt addr pages then some addr
      else searchPages m pdt pages fuel ((addr + bitmapPageSize) % word32)
    else some 0

/-- `mmu_alloc_pages`; `none` when the search does not end. -/
def mmuAllocPages (s : Mmu) (pages : ℕ) : Option (ℕ × Mmu) :=
  (searchPages s.mem s.currentPdt pages 1048576 s.kernelEnd).map fun startAddr =>
    if startAddr = 0 then (0, s)
    else
      let r := bitmapAllocContiguousPages s.bitmap pages
      if r.1 = 0 then (0, { s with bitmap := r.2 })
      else (startAddr,
        mmuMapPages { s with bitmap := r.2 } s.currentPdt r.1 startAddr pages true false)

/-- The body of the loop of `mmu_free_pages`. -/
def freePage (pdt addr i : ℕ) (s : Mmu) : Mmu :=
  let virtAddr := (addr + i * bitmapPageSize) % word32
  let realAddr := mmuGetPhysicalAddressPdt s.mem virtAddr pdt
  if mmuIsMapped s.mem pdt virtAddr then
    mmuUnmapPages { s with bitmap := bitmapFreePages s.bitmap realAddr 1 } pdt virtAddr 1
  else s

def mmuFreePages (s : Mmu) (pdt addr pages : ℕ) : Mmu := forRange (freePage pdt addr) pages 0 s

def mmuCopyKernelPages (s : Mmu) (pdt : ℕ) : Mmu :=
  forRange (fun i s => { s with mem := s.mem.copy (pdt + 4 * i) (s.kernelPdt + 4 * i) 4 }) 256 768 s

/-- The inner loop of `mmu_clone_pdt`: the page at index `j` of the table `pt`. -/
def clonePage (pt newPt j : ℕ) (s : Mmu) : Bool × Mmu :=
  let p := entryAt s.mem (pt + 4 * j)
  if p.present then
    let r := bitmapAllocPage s.bitmap
    if r.1 = 0 then (false, { s with bitmap := r.2 })
    else
      let mem := setEntry s.mem (newPt + 4 * j) (p.withFrame r.1)
      (true, { s with
        bitmap := r.2
        mem := mem.copy (entryAt mem (newPt + 4 * j)).frame (entryAt mem (pt + 4 * j)).frame 4096 })
  else (true, s)

/-- The outer loop of `mmu_clone_pdt`: the directory entry at index `i`. -/
def cloneEntry (pdt newPdt i : ℕ) (s : Mmu) : Bool × Mmu :=
  let pd := entryAt s.mem (pdt + 4 * i)
  if pd.present then
    let r := bitmapAllocPage s.bitmap
    if r.1 = 0 then (false, { s with bitmap := r.2 })
    else
      let mem := s.mem.fill r.1 4096 0
      let mem' := setEntry mem (newPdt + 4 * i) ((entryAt mem (pdt + 4 * i)).withFrame r.1)
      tryRange (clonePage pd.frame r.1) 1024 0 { s with bitmap := r.2, mem := mem' }
  else (true, s)

def mmuClonePdt (s : Mmu) (pdt : ℕ) : ℕ × Mmu :=
  let r := mmuNewPageDirectory s
  if r.1 = 0 then (0, r.2)
  else
    let t := tryRange (cloneEntry pdt r.1) 768 0 r.2
    if t.1 then (r.1, mmuCopyKernelPages t.2 r.1) else (0, t.2)

end DosKernel
