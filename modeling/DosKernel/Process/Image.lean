import DosKernel.Process.Arguments

/-! The segments of the program that `process_execve` starts. They are not copied: their pages are
mapped to the frames in which the file was loaded, so behind the bytes of a segment the program
finds what follows them there. -/

namespace DosKernel

open Lib Vfs

/-! ### What the loop reads -/

/-- The program headers of the file at `addr`, from `ph` on. -/
def headersFrom (s : Mmu) (ph n : ℕ) : List ProgramHeader :=
  (List.range n).map fun i => programHeader s ((ph + 32 * i) % word32)

def loadSegments (s : Mmu) (addr : ℕ) : List ProgramHeader :=
  (headersFrom s ((addr + s.view.load (addr + 28) 4) % word32) (s.view.load (addr + 44) 2)).filter
    fun h => h.type = elfPtLoad

/-- Where a segment lies in physical memory. -/
def segmentAddr (s : Mmu) (addr : ℕ) (h : ProgramHeader) : ℕ :=
  mmuGetPhysicalAddressPdt s.mem ((addr + h.offset) % word32) s.currentPdt

/-- The pages of a segment are mapped to the frames of the file, as `s` has them. -/
def mapLoad (s : Mmu) (pd addr : ℕ) (s' : Mmu) (h : ProgramHeader) : Mmu :=
  mmuMapPages s' pd (segmentAddr s addr h) h.virtualAddress h.pages true true

/-- In `s'` the kernel reads what it reads in `s`. -/
structure ReadsSame (s s' : Mmu) : Prop where
  pdt : s'.currentPdt = s.currentPdt
  same : SameUsed s.bitmap s'.mem s.mem

section Reads
variable {s s' : Mmu} {pd real virt len addr ph passes i v : ℕ} {rw user : Bool}
  {h : ProgramHeader} {segs : List ProgramHeader}

namespace ReadsSame

theorem view (h : ReadsSame s s') (hocc : Occupied s.bitmap s.mem s.currentPdt) (hv : v < word32) :
    s'.view v = s.view v := by
  have hin : pageOffset v + 1 ≤ 4096 := Nat.mod_lt v (by decide)
  have hread := hocc.read_eq h.same hv hin
  simp only [Mmu.view, mmuReadb, h.pdt, hread]

theorem load (h : ReadsSame s s') (hocc : Occupied s.bitmap s.mem s.currentPdt) (a n : ℕ) :
    s'.view.load a n = s.view.load a n :=
  Memory.load_eq fun _ _ => h.view hocc (Nat.mod_lt _ (by decide))

theorem programHeader (h : ReadsSame s s') (hocc : Occupied s.bitmap s.mem s.currentPdt) (ph : ℕ) :
    programHeader s' ph = programHeader s ph := by
  simp only [DosKernel.programHeader, h.load hocc]

theorem segmentAddr (h : ReadsSame s s') (hocc : Occupied s.bitmap s.mem s.currentPdt) (addr : ℕ)
    (header : ProgramHeader) : segmentAddr s' addr header = segmentAddr s addr header := by
  simp only [DosKernel.segmentAddr, mmuGetPhysicalAddressPdt, h.pdt,
    hocc.pageOf_eq h.same (Nat.mod_lt _ (by decide))]

theorem mapSegment (h : ReadsSame s s') (hocc : Occupied s.bitmap s.mem s.currentPdt)
    (pd addr ph : ℕ) : mapSegment s' pd addr ph =
      if (DosKernel.programHeader s ph).type = elfPtLoad then
        mapLoad s pd addr s' (DosKernel.programHeader s ph) else s' := by
  have haddr := h.segmentAddr hocc addr (DosKernel.programHeader s ph)
  rw [DosKernel.segmentAddr] at haddr
  rw [DosKernel.mapSegment, h.programHeader hocc, haddr]
  rfl

end ReadsSame

theorem NewSpace.reads {s₀ : Mmu} (h : NewSpace s₀.bitmap s₀.mem pd s)
    (hpdt : s.currentPdt = s₀.currentPdt) : ReadsSame s₀ s := ⟨hpdt, h.same⟩

end Reads

/-! ### Where the pages lead -/

/-- The bytes of the segment lie from `real` on. -/
def SegmentMapped (m : Memory) (pd real : ℕ) (h : ProgramHeader) : Prop :=
  ∀ j < h.memorySize, LeadsTo m pd (h.virtualAddress + j) ((real + j) % word32 / 4096 * 4096)

/-- The two segments are mapped to different pages. -/
def SegmentsApart (h h' : ProgramHeader) : Prop :=
  ∀ k < h.pages, ∀ k' < h'.pages,
    stepAddr h.virtualAddress k / 4096 ≠ stepAddr h'.virtualAddress k' / 4096

/-- The segments of a program: they lie below the pages for the vectors and in different pages,
and the parts that are in the file begin at the same place of a page there. -/
structure WellFormed (file : List UInt8) (segs : List ProgramHeader) : Prop where
  size : ∀ h ∈ segs, h.fileSize ≤ h.memorySize
  inFile : ∀ h ∈ segs, h.offset + h.fileSize ≤ file.length
  congruent : ∀ h ∈ segs, h.offset % 4096 = h.virtualAddress % 4096
  low : ∀ h ∈ segs, h.virtualAddress + h.memorySize ≤ 0xb00000
  apart : segs.Pairwise SegmentsApart

section Loads
variable {b : Bitmap} {m : Memory} {s s₀ : Mmu} {pd real addr v p j : ℕ} {h : ProgramHeader}
  {segs : List ProgramHeader}

theorem ProgramHeader.pages_le (hlow : h.virtualAddress + h.memorySize ≤ 0xb00000) :
    h.pages ≤ 1048576 := by
  rw [ProgramHeader.pages, bitmapPageSize, word32]
  omega

/-- A byte of the segment lies in one of its pages. -/
theorem ProgramHeader.page (hlow : h.virtualAddress + h.memorySize ≤ 0xb00000)
    (hj : j < h.memorySize) : (h.virtualAddress % 4096 + j) / 4096 < h.pages ∧
      (h.virtualAddress + j) / 4096 =
        stepAddr h.virtualAddress ((h.virtualAddress % 4096 + j) / 4096) / 4096 := by
  rw [ProgramHeader.pages, stepAddr_page, bitmapPageSize, word32]
  omega

theorem NewSpace.mapLoad (hs : NewSpace b m pd s)
    (hlow : h.virtualAddress + h.memorySize ≤ 0xb00000)
    (hmod : segmentAddr s₀ addr h % 4096 = h.virtualAddress % 4096)
    (hroom : ∃ p, (mapLoad s₀ pd addr s h).bitmap.Spare p) :
    Extended b m pd s (mapLoad s₀ pd addr s h) ∧
      SegmentMapped (mapLoad s₀ pd addr s h).mem pd (segmentAddr s₀ addr h) h ∧
      ∀ v p, v < word32 → (∀ k < h.pages, v / 4096 ≠ stepAddr h.virtualAddress k / 4096) →
        LeadsTo s.mem pd v p → LeadsTo (mapLoad s₀ pd addr s h).mem pd v p := by
  have hva : h.virtualAddress < word32 := by
    rw [word32]
    omega
  obtain ⟨hext, hfresh⟩ := hs.mapPages hva hroom
  refine ⟨hext, fun j hj => ?_, fun v p hv hout hleads =>
    hleads.mapPages hs.tree hva hfresh hv hout⟩
  obtain ⟨hk, hpage⟩ := h.page hlow hj
  have hleads := mmuMapPages_leads hs.tree hva (h.pages_le hlow) hfresh hk hpage
  have hframe : stepAddr (segmentAddr s₀ addr h) ((h.virtualAddress % 4096 + j) / 4096) / 4096 * 4096 =
      (segmentAddr s₀ addr h + j) % word32 / 4096 * 4096 := by
    rw [stepAddr, bitmapPageSize, word32]
    omega
  rwa [hframe] at hleads

end Loads

/-! ### The program -/

/-- The file lies at `addr` in the memory of the kernel, whose pages are in use. -/
structure FileLoaded (k : Kernel) (addr : ℕ) (file : List UInt8) : Prop where
  space : Occupied k.mmu.bitmap k.mmu.mem k.mmu.currentPdt
  top : addr + file.length < word32
  mapped : ∀ i ≤ file.length, mmuIsMapped k.mmu.mem k.mmu.currentPdt (addr + i) = true
  byte : ∀ i (h : i < file.length), k.mmu.view (addr + i) = file[i]

/-- The bytes of a segment lie one behind the other in physical memory too. -/
def FileContiguous (s : Mmu) (addr : ℕ) (h : ProgramHeader) : Prop :=
  ∀ j < h.fileSize, s.mem ((segmentAddr s addr h + j) % word32) = s.view (addr + h.offset + j)

section Program
variable {k k' k₂ : Kernel} {fs : FsCalls} {root : Option Mount} {mounts : List Mount}
  {path : Option (List Char)} {p addr argv envp j : ℕ} {args env : List (List UInt8)}
  {file : List UInt8} {h : ProgramHeader}

theorem mallocAlign_aligned {size : ℕ} (h : mallocAlign k size bitmapPageSize = some (addr, k'))
    (hne : addr ≠ 0) : addr % 4096 = 0 := by
  obtain ⟨raw, -, -, rfl⟩ := mallocAlign_eq h hne
  have hup := alignUp_mod (show 0 < bitmapPageSize by decide) raw
  rw [bitmapPageSize] at hup ⊢
  rw [word32]
  omega

theorem ExecLoads.aligned (h : ExecLoads k fs root mounts path addr k₂) : addr % 4096 = 0 := by
  obtain ⟨mount, st, k₁, -, hfile⟩ := h.found
  obtain ⟨⟨buf, k₃⟩, halign, heq⟩ := Option.map_eq_some_iff.mp hfile
  dsimp only at heq
  split_ifs at heq
  · exact absurd (Prod.mk.inj heq).1.symm h.ne
  · obtain ⟨rfl, -⟩ := Prod.mk.inj heq
    exact mallocAlign_aligned halign h.ne

/-- So it is in a buffer that is contiguous in physical memory. -/
theorem FileLoaded.contiguous (hfile : FileLoaded k addr file)
    (hwf : WellFormed file (loadSegments k.mmu addr)) (hh : h ∈ loadSegments k.mmu addr)
    (hphys : ∀ j < h.fileSize,
      mmuGetPhysicalAddressPdt k.mmu.mem (addr + h.offset + j) k.mmu.currentPdt =
        (segmentAddr k.mmu addr h + j) % word32) : FileContiguous k.mmu addr h := by
  intro j hj
  have hin := hwf.inFile h hh
  have hmapped := hfile.mapped (h.offset + j) (by omega)
  have hplace := hphys j hj
  rw [← Nat.add_assoc, mmuIsMapped] at hmapped
  obtain ⟨e, he⟩ := Option.isSome_iff_exists.mp hmapped
  rw [mmuGetPhysicalAddressPdt, he, Option.elim_some] at hplace
  have htop : (segmentAddr k.mmu addr h + j) % word32 < Lib.space := Nat.mod_lt _ (by decide)
  rw [Mmu.view, mmuReadb, mmuRead, he, Option.elim_some, hplace, Memory.load, Memory.load,
    Nat.mod_eq_of_lt htop, Nat.mul_zero, Nat.add_zero, UInt8.ofNat_toNat]

end Program

section Example
variable {c d : UInt8} {i j : ℕ}

end Example

end DosKernel
