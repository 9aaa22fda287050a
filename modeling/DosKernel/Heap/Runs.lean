import DosKernel.Lib.Runs
import DosKernel.Heap.Blocks

/-! The operations of the heap on a state that carries the live allocations
besides the blocks, and what one operation does to the block it works on. -/

namespace DosKernel

/-- An allocation: the pointer that `heap_alloc` returned and the size asked for. -/
structure Alloc where
  ptr : ℕ
  size : ℕ
  deriving DecidableEq

namespace Alloc

def cells (a : Alloc) : ℕ := divUp a.size 16

/-- The byte at `addr` belongs to the allocation. -/
def Covers (a : Alloc) (addr : ℕ) : Prop := a.ptr ≤ addr ∧ addr < a.ptr + 16 * a.cells

def Disjoint (a c : Alloc) : Prop := ∀ addr, a.Covers addr → ¬ c.Covers addr

theorem Disjoint.symm {a c : Alloc} (h : a.Disjoint c) : c.Disjoint a :=
  fun addr hc ha => h addr ha hc

instance : Std.Symm Disjoint := ⟨fun _ _ h => h.symm⟩

theorem size_le (a : Alloc) : a.size ≤ 16 * a.cells := by
  rw [cells, divUp_sixteen]
  omega

end Alloc

namespace HeapBlock

/-- The number of cells that hold the marks. -/
def reserved (hb : HeapBlock) : ℕ := divUp hb.blockCount hb.blockSize

/-- The two regions share no byte. -/
def Apart (hb k : HeapBlock) : Prop :=
  hb.base + sizeofHeapBlock + hb.size ≤ k.base ∨ k.base + sizeofHeapBlock + k.size ≤ hb.base

def taken (hb : HeapBlock) : Finset ℕ := (Finset.range hb.blockCount).filter (hb.marks · ≠ 0)

/-- A block made by `heap_add_block` on a region of at least one page. -/
structure Made (hb : HeapBlock) : Prop where
  base_pos : 0 < hb.base
  blockSize_eq : hb.blockSize = 16
  page : 4096 ≤ hb.size + sizeofHeapBlock
  top : hb.base + sizeofHeapBlock + hb.size ≤ word32

/-- A block made by `heap_add_block` on a region of at least one page whose end
is a 32-bit address. -/
structure Ok (hb : HeapBlock) : Prop where
  base_pos : 0 < hb.base
  blockSize_eq : hb.blockSize = 16
  page : 4096 ≤ hb.size + sizeofHeapBlock
  top : hb.base + sizeofHeapBlock + hb.size < word32

/-- The allocation is a run of equal marks behind the reserved cells, and the
next cell has another mark. -/
structure Holds (hb : HeapBlock) (a : Alloc) (x : ℕ) : Prop where
  ptr_eq : a.ptr = hb.cell x
  cells_pos : 1 ≤ a.cells
  behind : hb.reserved ≤ x
  inside : x + a.cells ≤ hb.blockCount
  same : ∀ i < a.cells, hb.marks (x + i) = hb.marks x
  ends : x + a.cells < hb.blockCount → hb.marks (x + a.cells) ≠ hb.marks x

end HeapBlock

structure HeapState where
  heap : Heap
  live : List Alloc

inductive HeapOp
  | addBlock (addr size : ℕ)
  | alloc (peek : ℕ → UInt8) (size : ℕ)
  | free (a : Alloc)

/-- The region `[addr, addr + size)` shares no byte with a block. -/
def regionApart (addr size : ℕ) (hb : HeapBlock) : Bool :=
  decide (addr + size ≤ hb.base) || decide (hb.base + sizeofHeapBlock + hb.size ≤ addr)

/-- Blocks are added on disjoint non-null regions of at least one page, with
cells of 16 bytes; only live pointers are freed. -/
def heapStep (s : HeapState) : HeapOp → Option HeapState
  | .addBlock addr size =>
    if addr ≠ 0 ∧ 4096 ≤ size ∧ addr + size ≤ word32 ∧ s.heap.all (regionApart addr size) then
      some { s with heap := heapAddBlock s.heap addr size 16 }
    else none
  | .alloc peek size =>
    if size = 0 then none
    else
      let r := heapAlloc peek s.heap size
      some { heap := r.2, live := if r.1 = 0 then s.live else ⟨r.1, size⟩ :: s.live }
  | .free a =>
    if a ∈ s.live then some { heap := (heapFree s.heap a.ptr).2, live := s.live.erase a }
    else none

/-- The side condition of the runs below: a region ends below the last address. -/
def RegionEndsBelowTop (_ : HeapState) : HeapOp → Prop
  | .addBlock addr size => addr + size < word32
  | _ => True

/-! ### Geometry -/

section Geometry
variable {hb k : HeapBlock} {a c : Alloc} {x y i : ℕ}

theorem HeapBlock.Ok.made (h : hb.Ok) : hb.Made :=
  ⟨h.base_pos, h.blockSize_eq, h.page, h.top.le⟩

theorem HeapBlock.Made.reserved_eq (h : hb.Made) : hb.reserved = (hb.blockCount + 15) / 16 := by
  rw [HeapBlock.reserved, h.blockSize_eq, divUp_sixteen]

theorem HeapBlock.Made.blockCount_eq (h : hb.Made) : hb.blockCount = hb.size / 16 := by
  rw [HeapBlock.blockCount, h.blockSize_eq]

theorem HeapBlock.Made.cell_eq (h : hb.Made) (i : ℕ) : hb.cell i = hb.base + 20 + 16 * i := by
  rw [HeapBlock.cell, h.blockSize_eq, sizeofHeapBlock]

theorem HeapBlock.Made.cell_top (h : hb.Made) (hi : i ≤ hb.blockCount) :
    hb.cell i ≤ hb.base + sizeofHeapBlock + hb.size := by
  have hc := h.blockCount_eq
  rw [h.cell_eq, sizeofHeapBlock]
  omega

theorem HeapBlock.Apart.symm (h : hb.Apart k) : k.Apart hb := Or.symm h

instance : Std.Symm HeapBlock.Apart := ⟨fun _ _ h => h.symm⟩

theorem HeapBlock.Holds.covers (hok : hb.Made) (h : hb.Holds a x) :
    a.Covers (hb.cell i) ↔ x ≤ i ∧ i < x + a.cells := by
  simp only [Alloc.Covers, h.ptr_eq, hok.cell_eq]
  omega

/-- An allocation covers no cell of another block. -/
theorem HeapBlock.Holds.not_covers (hok : hb.Made) (h : hb.Holds a x) (hk : k.Made)
    (hapart : hb.Apart k) (hi : i < k.blockCount) : ¬ a.Covers (k.cell i) := by
  have h1 := hok.cell_top h.inside
  have h2 := hk.cell_top hi
  have hin := h.inside
  simp only [Alloc.Covers, h.ptr_eq, hok.cell_eq, hk.cell_eq, HeapBlock.Apart,
    sizeofHeapBlock] at *
  omega

/-- Two allocations of one block are disjoint when they share no cell. -/
theorem HeapBlock.Holds.disjoint (hok : hb.Made) (ha : hb.Holds a x) (hc : hb.Holds c y)
    (h : ∀ i, x ≤ i → i < x + a.cells → ¬ (y ≤ i ∧ i < y + c.cells)) : a.Disjoint c := by
  intro addr h1 h2
  simp only [Alloc.Covers, ha.ptr_eq, hc.ptr_eq, hok.cell_eq] at h1 h2
  exact h ((addr - hb.base - 20) / 16) (by omega) (by omega) ⟨by omega, by omega⟩

theorem HeapBlock.Holds.disjoint_of_apart (hok : hb.Made) (ha : hb.Holds a x) (hk : k.Made)
    (hc : k.Holds c y) (hapart : hb.Apart k) : a.Disjoint c := by
  intro addr h1 h2
  have h3 := hok.cell_top ha.inside
  have h4 := hk.cell_top hc.inside
  simp only [Alloc.Covers, ha.ptr_eq, hc.ptr_eq, hok.cell_eq, hk.cell_eq, HeapBlock.Apart,
    sizeofHeapBlock] at *
  omega

end Geometry

/-! ### One block -/

/-- A block after the cells `[x, x + n)` were given the mark `v`. -/
structure HeapBlock.Remark (hb hb' : HeapBlock) (x n : ℕ) (v : UInt8) : Prop where
  base_eq : hb'.base = hb.base
  size_eq : hb'.size = hb.size
  blockSize_eq : hb'.blockSize = hb.blockSize
  marks_eq : hb'.marks = setRange hb.marks x n v

namespace HeapBlock.Remark

variable {hb hb' k : HeapBlock} {a : Alloc} {x n y i : ℕ} {v : UInt8}

theorem blockCount_eq (h : hb.Remark hb' x n v) : hb'.blockCount = hb.blockCount := by
  rw [blockCount, h.size_eq, h.blockSize_eq, ← blockCount]

theorem reserved_eq (h : hb.Remark hb' x n v) : hb'.reserved = hb.reserved := by
  rw [reserved, h.blockCount_eq, h.blockSize_eq, ← reserved]

theorem cell_eq (h : hb.Remark hb' x n v) (i : ℕ) : hb'.cell i = hb.cell i := by
  rw [cell, h.base_eq, h.blockSize_eq, ← cell]

theorem made (h : hb.Remark hb' x n v) (hmade : hb.Made) : hb'.Made :=
  ⟨h.base_eq ▸ hmade.base_pos, h.blockSize_eq.trans hmade.blockSize_eq, h.size_eq ▸ hmade.page,
    by rw [h.base_eq, h.size_eq]; exact hmade.top⟩

theorem ok (h : hb.Remark hb' x n v) (hok : hb.Ok) : hb'.Ok :=
  ⟨h.base_eq ▸ hok.base_pos, h.blockSize_eq.trans hok.blockSize_eq, h.size_eq ▸ hok.page,
    by rw [h.base_eq, h.size_eq]; exact hok.top⟩

theorem apart (h : hb.Remark hb' x n v) : hb'.Apart k ↔ hb.Apart k := by
  simp only [Apart, h.base_eq, h.size_eq]

/-- An allocation off the new marks stays where it is, when the mark is not its own. -/
theorem holds (h : hb.Remark hb' x n v) (ha : hb.Holds a y)
    (hoff : ∀ i, y ≤ i → i < y + a.cells → ¬ (x ≤ i ∧ i < x + n))
    (hv : x ≤ y + a.cells → y + a.cells < x + n → v ≠ hb.marks y) : hb'.Holds a y := by
  have hkeep : ∀ i < a.cells, hb'.marks (y + i) = hb.marks (y + i) := fun i hi => by
    rw [h.marks_eq, setRange_of_not_mem _ _ (hoff _ (by omega) (by omega))]
  have hy : hb'.marks y = hb.marks y := by simpa using hkeep 0 ha.cells_pos
  refine ⟨ha.ptr_eq.trans (h.cell_eq y).symm, ha.cells_pos, h.reserved_eq ▸ ha.behind,
    h.blockCount_eq ▸ ha.inside, fun i hi => ?_, fun hlt => ?_⟩
  · rw [hkeep i hi, hy, ha.same i hi]
  · rw [hy, h.marks_eq]
    by_cases hin : x ≤ y + a.cells ∧ y + a.cells < x + n
    · rw [setRange_of_mem _ _ hin]
      exact hv hin.1 hin.2
    · rw [setRange_of_not_mem _ _ hin]
      exact ha.ends (h.blockCount_eq ▸ hlt)

/-- The cells of a new mark are an allocation, when the cell behind them has another mark. -/
theorem holds_new (h : hb.Remark hb' x a.cells v) (hptr : a.ptr = hb.cell x) (hcells : 1 ≤ a.cells)
    (hbehind : hb.reserved ≤ x) (hin : x + a.cells ≤ hb.blockCount)
    (hright : x + a.cells < hb.blockCount → v ≠ hb.marks (x + a.cells)) : hb'.Holds a x := by
  have hnew : ∀ i, x ≤ i → i < x + a.cells → hb'.marks i = v := fun i hi hi' => by
    rw [h.marks_eq, setRange_of_mem _ _ ⟨hi, hi'⟩]
  refine ⟨hptr.trans (h.cell_eq x).symm, hcells, h.reserved_eq ▸ hbehind,
    h.blockCount_eq ▸ hin, fun i hi => ?_, fun hlt => ?_⟩
  · rw [hnew (x + i) (by omega) (by omega), hnew x le_rfl (by omega)]
  · rw [hnew x le_rfl (by omega), h.marks_eq, setRange_of_not_mem _ _ (by omega)]
    exact (hright (h.blockCount_eq ▸ hlt)).symm

end HeapBlock.Remark

section OneBlock
variable {hb hb' : HeapBlock} {x n p size : ℕ} {peek : ℕ → UInt8}

/-- `heap_alloc` in one block: a free run gets an id that neither neighbour has. -/
theorem heapAllocBlock_spec (hok : hb.Made) (hres : hb.marks 0 ≠ 0) (hsize : 1 ≤ size)
    (h : heapAllocBlock peek hb size = some (p, hb')) :
    ∃ x v, p = hb.cell x ∧ 1 ≤ x ∧ hb.Remark hb' x (divUp size 16) v ∧
      hb'.used = hb.used + divUp size 16 ∧
      (∀ i < divUp size 16, x + i < hb.blockCount ∧ hb.marks (x + i) = 0) ∧
      v ≠ 0 ∧ v ≠ hb.marks (x - 1) ∧
      (x + divUp size 16 < hb.blockCount → v ≠ hb.marks (x + divUp size 16)) := by
  have hn : 1 ≤ divUp size 16 := by rw [divUp_sixteen]; omega
  rw [heapAllocBlock, hok.blockSize_eq] at h
  dsimp only at h
  split at h
  · cases h
  split at h
  · cases h
  next x hscan =>
    have hfree := heapScan_spec hb _ _ _ _ _ hscan
    have hx0 : hb.marks x = 0 := by simpa using (hfree 0 (by omega)).2
    have hxlt := (hfree 0 (by omega)).1
    have hx : x ≠ 0 := fun h0 => hres (h0 ▸ hx0)
    simp only [if_neg hx, Option.some.injEq, Prod.mk.injEq] at h
    obtain ⟨rfl, rfl⟩ := h
    obtain ⟨hl, hr, hz⟩ := heapGetNewId_spec (hb.byteAt peek (x - 1))
      (hb.byteAt peek (x + divUp size 16))
    refine ⟨x, _, ?_, by omega, ⟨rfl, rfl, hok.blockSize_eq.symm, rfl⟩, rfl, hfree, hz, ?_, ?_⟩
    · have := hok.cell_top (i := x + 1) (by omega)
      have := hok.top
      rw [Nat.mod_eq_of_lt] <;> rw [hok.cell_eq] at * <;> simp only [sizeofHeapBlock] at * <;> omega
    · have hbyte : hb.byteAt peek (x - 1) = hb.marks (x - 1) := if_pos (by omega)
      rw [hbyte] at hl ⊢
      exact hl
    · intro hlt
      have hbyte : hb.byteAt peek (x + divUp size 16) = hb.marks (x + divUp size 16) := if_pos hlt
      rw [hbyte] at hr ⊢
      exact hr

/-- `heap_free` of an address inside an allocation clears its cells from that address on. -/
theorem heapFreeBlock_at (hok : hb.Made) {a : Alloc} {d : ℕ} (ha : hb.Holds a x)
    (hd : d < 16 * a.cells) (hused : a.cells ≤ hb.used) (hbound : hb.used ≤ hb.blockCount) :
    heapFreeBlock hb (a.ptr + d) =
      { hb with
        marks := setRange hb.marks (x + d / 16) (a.cells - d / 16) 0
        used := hb.used - (a.cells - d / 16) } := by
  have hc := hok.blockCount_eq
  have hin := ha.inside
  have htop := hok.top
  have hbi : (a.ptr + d + word32 - (hb.base + sizeofHeapBlock)) % word32 / hb.blockSize =
      x + d / 16 := by
    rw [ha.ptr_eq, hok.cell_eq, hok.blockSize_eq]
    simp only [sizeofHeapBlock, word32] at *
    omega
  have hmark : ∀ i < a.cells - d / 16, hb.marks (x + d / 16 + i) = hb.marks (x + d / 16) := by
    intro i hi
    rw [Nat.add_assoc, ha.same _ (by omega), ha.same _ (by omega)]
  have hsum : x + d / 16 + (a.cells - d / 16) = x + a.cells := by omega
  have hend : runEnd hb (hb.marks (x + d / 16)) (hb.blockCount - (x + d / 16)) (x + d / 16) =
      x + d / 16 + (a.cells - d / 16) := by
    refine runEnd_eq hb _ _ (fun i hi => ⟨hmark i hi, by omega⟩) (fun hlt => ?_) (by omega)
    rw [hsum] at hlt ⊢
    rw [ha.same (d / 16) (by omega)]
    exact ha.ends hlt
  have hleft : (hb.used + word32 - (a.cells - d / 16)) % word32 =
      hb.used - (a.cells - d / 16) := by
    simp only [sizeofHeapBlock, word32] at *
    omega
  simp only [heapFreeBlock, hbi, hend, Nat.add_sub_cancel_left, hleft]

/-- `heap_free` in the block that holds the allocation clears its cells. -/
theorem heapFreeBlock_spec (hok : hb.Made) {a : Alloc} (ha : hb.Holds a x)
    (hused : a.cells ≤ hb.used) (hbound : hb.used ≤ hb.blockCount) :
    hb.Remark (heapFreeBlock hb a.ptr) x a.cells 0 ∧
      (heapFreeBlock hb a.ptr).used + a.cells = hb.used := by
  have hpos := ha.cells_pos
  have hfree := heapFreeBlock_at (d := 0) hok ha (by omega) hused hbound
  rw [Nat.add_zero] at hfree
  rw [hfree]
  exact ⟨⟨rfl, rfl, rfl, rfl⟩, Nat.sub_add_cancel hused⟩

/-- An address in the cells of a block belongs to no other block. -/
theorem HeapBlock.Apart.not_owns {k : HeapBlock} (hapart : hb.Apart k)
    (h1 : hb.base + sizeofHeapBlock ≤ n) (h2 : n < hb.base + sizeofHeapBlock + hb.size) :
    k.owns n = false := by
  have hmod := Nat.mod_le (k.base + sizeofHeapBlock + k.size) word32
  rw [HeapBlock.owns, Bool.and_eq_false_iff, decide_eq_false_iff_not, decide_eq_false_iff_not]
  generalize (k.base + sizeofHeapBlock + k.size) % word32 = top at hmod ⊢
  simp only [HeapBlock.Apart, sizeofHeapBlock] at *
  omega

/-- Every byte of an allocation lies in the cells of its block. -/
theorem HeapBlock.Holds.bounds (hok : hb.Made) {a : Alloc} {d : ℕ} (ha : hb.Holds a x)
    (hd : d < 16 * a.cells) : hb.base + sizeofHeapBlock ≤ a.ptr + d ∧
      a.ptr + d < hb.base + sizeofHeapBlock + hb.size := by
  have h1 := hok.cell_top ha.inside
  rw [ha.ptr_eq]
  simp only [hok.cell_eq, sizeofHeapBlock] at *
  omega

/-- A block owns the bytes of its allocations unless it ends with the address space. -/
theorem HeapBlock.Holds.owns_iff (hok : hb.Made) {a : Alloc} {d : ℕ} (ha : hb.Holds a x)
    (hd : d < 16 * a.cells) :
    hb.owns (a.ptr + d) = true ↔ hb.base + sizeofHeapBlock + hb.size < word32 := by
  have h1 := ha.bounds hok hd
  have htop := hok.top
  rw [HeapBlock.owns, Bool.and_eq_true, decide_eq_true_eq, decide_eq_true_eq]
  constructor
  · intro h
    refine lt_of_le_of_ne htop fun heq => ?_
    rw [heq, Nat.mod_self] at h
    omega
  · intro hlt
    rw [Nat.mod_eq_of_lt hlt]
    simp only [sizeofHeapBlock] at *
    omega

theorem HeapBlock.Holds.owns (hok : hb.Ok) {a : Alloc} (ha : hb.Holds a x) :
    hb.owns a.ptr = true := by
  have hpos := ha.cells_pos
  exact (ha.owns_iff (d := 0) hok.made (by omega)).mpr hok.top

theorem HeapBlock.Holds.not_owns (hok : hb.Made) {a : Alloc} (ha : hb.Holds a x) {k : HeapBlock}
    (hapart : hb.Apart k) : k.owns a.ptr = false := by
  have hpos := ha.cells_pos
  obtain ⟨h1, h2⟩ := ha.bounds (d := 0) hok (by omega)
  exact hapart.not_owns h1 h2

/-- The bound that a block at the end of the address space compares with is 0. -/
theorem HeapBlock.not_owns_of_top (htop : hb.base + sizeofHeapBlock + hb.size = word32) (addr : ℕ) :
    hb.owns addr = false := by
  rw [HeapBlock.owns, htop, Nat.mod_self, Bool.and_eq_false_iff]
  exact .inr (decide_eq_false (Nat.not_lt_zero addr))

end OneBlock

/-! ### The list of blocks -/

section Blocks
variable {peek : ℕ → UInt8} {l r : Heap} {hb hb' k : HeapBlock} {x n size addr : ℕ} {v : UInt8}

theorem heapAlloc_cases (peek : ℕ → UInt8) (h : Heap) (size : ℕ) :
    heapAlloc peek h size = (0, h) ∨
    ∃ l hb r p hb', h = l ++ hb :: r ∧ heapAllocBlock peek hb size = some (p, hb') ∧
      heapAlloc peek h size = (p, l ++ hb' :: r) := by
  induction h with
  | nil => exact Or.inl rfl
  | cons k rest ih =>
    simp only [heapAlloc]
    cases hk : heapAllocBlock peek k size with
    | none =>
      rcases ih with ih | ⟨l, hb, r, p, hb', hl, hsome, he⟩
      · exact Or.inl (by simp only [ih, Option.elim_none])
      · refine Or.inr ⟨k :: l, hb, r, p, hb', ?_, hsome, ?_⟩
        · rw [hl, List.cons_append]
        · simp only [he, Option.elim_none, List.cons_append]
    | some q =>
      refine Or.inr ⟨[], k, rest, q.1, q.2, ?_, hk, ?_⟩
      · rw [List.nil_append]
      · rw [List.nil_append, Option.elim_some]

theorem heapAlloc_lt (h : Heap) (size : ℕ) : (heapAlloc peek h size).1 < word32 := by
  rcases heapAlloc_cases peek h size with h0 | ⟨l, hb, r, p, hb', -, hblock, heq⟩
  · rw [h0]
    exact Nat.zero_lt_of_ne_zero (by decide)
  · rw [heq]
    rw [heapAllocBlock] at hblock
    dsimp only at hblock
    split at hblock
    · cases hblock
    split at hblock
    · cases hblock
    obtain ⟨rfl, -⟩ := Prod.mk.inj (Option.some.inj hblock)
    exact Nat.mod_lt _ (by decide)

theorem heapFree_append (hl : ∀ k ∈ l, k.owns addr = false) (howns : hb.owns addr = true) :
    heapFree (l ++ hb :: r) addr = (true, l ++ heapFreeBlock hb addr :: r) := by
  induction l with
  | nil => simp [heapFree, howns]
  | cons k l ih =>
    have hk : k.owns addr = false := hl k List.mem_cons_self
    simp [heapFree, hk, ih fun j hj => hl j (List.mem_cons_of_mem k hj)]

theorem heapFree_none {h : Heap} (hnone : ∀ k ∈ h, k.owns addr = false) :
    heapFree h addr = (false, h) := by
  induction h with
  | nil => rfl
  | cons k h ih =>
    have hk : k.owns addr = false := hnone k List.mem_cons_self
    simp [heapFree, hk, ih fun j hj => hnone j (List.mem_cons_of_mem k hj)]

/-- A block as `heap_add_block` leaves it on the region `[addr, addr + size)`. -/
structure HeapBlock.New (hb : HeapBlock) (addr size : ℕ) : Prop where
  base_eq : hb.base = addr
  size_eq : hb.size = size - 20
  blockSize_eq : hb.blockSize = 16
  marks_eq : hb.marks = setRange (fun _ => 0) 0 hb.reserved 5
  used_eq : hb.used = hb.reserved
  lfb_eq : hb.lfb + 1 = hb.reserved

theorem heapAddBlock_eq (h : Heap) (haddr : addr ≠ 0) (hsize : 4096 ≤ size)
    (hlt : size < word32) : ∃ hb, heapAddBlock h addr size 16 = hb :: h ∧ hb.New addr size := by
  have hcut : (size + word32 - sizeofHeapBlock) % word32 = size - 20 := by
    simp only [sizeofHeapBlock, word32] at *
    omega
  refine ⟨_, if_neg haddr, ⟨rfl, hcut, rfl, rfl, rfl, ?_⟩⟩
  have hreserved := divUp_sixteen ((size - 20) / 16)
  dsimp only [HeapBlock.reserved, HeapBlock.blockCount]
  rw [hcut]
  simp only [word32] at *
  omega

namespace HeapBlock.New

theorem blockCount_eq (h : hb.New addr size) : hb.blockCount = (size - 20) / 16 := by
  rw [HeapBlock.blockCount, h.size_eq, h.blockSize_eq]

theorem reserved_eq (h : hb.New addr size) : hb.reserved = ((size - 20) / 16 + 15) / 16 := by
  rw [HeapBlock.reserved, h.blockSize_eq, divUp_sixteen, h.blockCount_eq]

theorem marks_ne_iff (h : hb.New addr size) (i : ℕ) : hb.marks i ≠ 0 ↔ i < hb.reserved := by
  rw [h.marks_eq]
  by_cases hi : 0 ≤ i ∧ i < 0 + hb.reserved
  · rw [setRange_of_mem _ _ hi]
    exact iff_of_true (by decide) (by omega)
  · rw [setRange_of_not_mem _ _ hi]
    exact iff_of_false (by simp) (by omega)

theorem used_taken (h : hb.New addr size) : hb.used = hb.taken.card := by
  have heq : hb.taken = Finset.range hb.reserved := by
    ext i
    have h1 := h.reserved_eq
    have h2 := h.blockCount_eq
    simp only [HeapBlock.taken, Finset.mem_filter, Finset.mem_range, h.marks_ne_iff]
    omega
  rw [heq, Finset.card_range, h.used_eq]

theorem made (h : hb.New addr size) (haddr : addr ≠ 0) (hsize : 4096 ≤ size)
    (htop : addr + size ≤ word32) : hb.Made := by
  have h1 := h.base_eq
  have h2 := h.size_eq
  exact ⟨by omega, h.blockSize_eq, by rw [sizeofHeapBlock]; omega,
    by rw [sizeofHeapBlock]; omega⟩

end HeapBlock.New

theorem apart_of_mem (h : (l ++ hb :: r).Pairwise HeapBlock.Apart) (hk : k ∈ l ∨ k ∈ r) :
    hb.Apart k := by
  rw [List.pairwise_append, List.pairwise_cons] at h
  rcases hk with hk | hk
  · exact (h.2.2 k hk hb List.mem_cons_self).symm
  · exact h.2.1.1 k hk

theorem HeapBlock.Remark.pairwise (hm : hb.Remark hb' x n v)
    (h : (l ++ hb :: r).Pairwise HeapBlock.Apart) :
    (l ++ hb' :: r).Pairwise HeapBlock.Apart := by
  rw [List.pairwise_append, List.pairwise_cons] at h ⊢
  refine ⟨h.1, ⟨fun k hk => hm.apart.mpr (h.2.1.1 k hk), h.2.1.2⟩, fun j hj k hk => ?_⟩
  rcases List.mem_cons.mp hk with rfl | hk
  · exact (hm.apart.mpr (h.2.2 j hj hb List.mem_cons_self).symm).symm
  · exact h.2.2 j hj k (List.mem_cons_of_mem hb hk)

theorem mem_middle : k ∈ l ++ hb :: r ↔ k = hb ∨ k ∈ l ∨ k ∈ r := by
  rw [List.mem_append, List.mem_cons]
  tauto

end Blocks

end DosKernel
