import DosKernel.Heap.Complete

/-! Blocks that are filled from the front, as they are when nothing was freed. The next
allocation is put behind the last one, or behind the taken cells when the search wraps. -/

namespace DosKernel

/-- The first `x` cells of the block are taken and the others are free. -/
structure HeapBlock.TakenTo (hb : HeapBlock) (addr size x : ℕ) : Prop where
  base_eq : hb.base = addr
  size_eq : hb.size = size - 20
  blockSize_eq : hb.blockSize = 16
  taken : ∀ i < x, hb.marks i ≠ 0
  free : ∀ i, x ≤ i → hb.marks i = 0
  used_eq : hb.used = x

/-- The cursor is at the end of the taken cells. -/
structure HeapBlock.FilledTo (hb : HeapBlock) (addr size x : ℕ) : Prop
    extends hb.TakenTo addr size x where
  lfb_eq : hb.lfb + 1 = x ∨ hb.lfb + 2 = x

/-- Not one cell is free. -/
def HeapBlock.Full (hb : HeapBlock) : Prop :=
  (hb.size + word32 - hb.used * hb.blockSize % word32) % word32 < 16

/-- Behind full blocks the heap has a block that is filled up to the cell `x`. -/
structure HeapFilledTo (heap l : Heap) (addr size x : ℕ) (r : Heap) : Prop where
  full : ∀ hb ∈ l, hb.Full
  filled : ∃ hb, heap = l ++ hb :: r ∧ hb.FilledTo addr size x

section Filled
variable {hb : HeapBlock} {heap l r : Heap} {addr size x n : ℕ} (peek : ℕ → UInt8)

theorem HeapBlock.New.filledTo (h : hb.New addr size) : hb.FilledTo addr size hb.reserved := by
  refine ⟨⟨h.base_eq, h.size_eq, h.blockSize_eq, fun i => (h.marks_ne_iff i).mpr, fun i hi => ?_,
    h.used_eq⟩, .inl h.lfb_eq⟩
  by_contra hne
  exact absurd ((h.marks_ne_iff i).mp hne) (Nat.not_lt.mpr hi)

/-- A block of 256 pages, as `malloc` adds them. -/
theorem heapAddBlock_filled (heap : Heap) (haddr : addr ≠ 0) :
    HeapFilledTo (heapAddBlock heap addr 0x100000 16) [] addr 0x100000 4096 heap := by
  obtain ⟨hb, hadd, hnew⟩ := heapAddBlock_eq heap haddr (show 4096 ≤ 0x100000 by decide) (by decide)
  have hreserved : hb.reserved = 4096 := hnew.reserved_eq
  exact ⟨List.forall_mem_nil _, hb, hadd, hreserved ▸ hnew.filledTo⟩

theorem countFree_free (h : ∀ i < n, x + i < hb.blockCount ∧ hb.marks (x + i) = 0) :
    countFree hb x n 0 = n := by
  have hle : countFree hb x n 0 ≤ 0 + n := countFree_le n 0
  by_contra hne
  have hstop : ¬ (x + countFree hb x n 0 < hb.blockCount ∧ hb.marks (x + countFree hb x n 0) = 0) :=
    countFree_stop n 0 (by omega)
  exact hstop (h _ (by omega))

namespace HeapBlock.TakenTo

theorem blockCount_eq (h : hb.TakenTo addr size x) : hb.blockCount = (size - 20) / 16 := by
  rw [HeapBlock.blockCount, h.size_eq, h.blockSize_eq]

theorem scan_here (h : hb.TakenTo addr size x) (hn : 1 ≤ n) (hroom : x + n ≤ hb.blockCount)
    (hlfb : x ≠ hb.lfb) (fuel : ℕ) (wrapped : Bool) :
    heapScan hb n (fuel + 1) x wrapped = some x := by
  have hfree : ∀ i < n, x + i < hb.blockCount ∧ hb.marks (x + i) = 0 := fun i hi =>
    ⟨by omega, h.free _ (by omega)⟩
  rw [heapScan_inside fuel wrapped hlfb (by omega), if_pos (h.free x le_rfl),
    if_pos (countFree_free hfree)]

/-- What the allocation at the first free cell leaves. -/
theorem alloc (h : hb.TakenTo addr size x) (hn : 1 ≤ n) (hx : 1 ≤ x)
    (hroom : 16 * (x + divUp n 16) ≤ size - 20) (hlt : size ≤ word32)
    (hscan : heapScan hb (divUp n 16) (2 * hb.blockCount + 2)
      (if hb.blockCount ≤ hb.lfb + 1 then 0 else hb.lfb + 1) false = some x) :
    ∃ hb', heapAllocBlock peek hb n = some ((16 * x + addr + 20) % word32, hb') ∧
      hb'.FilledTo addr size (x + divUp n 16) := by
  have hcells : 1 ≤ divUp n 16 ∧ n ≤ 16 * divUp n 16 := by
    rw [divUp_sixteen]
    omega
  have hspace : ¬ (hb.size + word32 - hb.used * hb.blockSize % word32) % word32 < n := by
    rw [h.size_eq, h.used_eq, h.blockSize_eq]
    simp only [word32] at *
    omega
  rw [heapAllocBlock, if_neg hspace]
  dsimp only
  rw [h.blockSize_eq, hscan]
  dsimp only
  generalize hid : heapGetNewId _ _ = newId
  have hne : newId ≠ 0 := hid ▸ (heapGetNewId_spec _ _).2.2
  refine ⟨_, congrArg some (Prod.ext ?_ rfl), ⟨h.base_eq, h.size_eq, rfl, fun i hi => ?_,
    fun i hi => ?_, ?_⟩, .inr ?_⟩
  · rw [h.base_eq, sizeofHeapBlock, Nat.mul_comm]
  · dsimp only
    by_cases hlow : i < x
    · rw [setRange_of_not_mem _ _ (by omega)]
      exact h.taken i hlow
    · rwa [setRange_of_mem _ _ (by omega)]
  · dsimp only
    rw [setRange_of_not_mem _ _ (by omega)]
    exact h.free i (by omega)
  · rw [h.used_eq]
  · simp only [word32] at *
    omega

end HeapBlock.TakenTo

/-- The next allocation is put behind the last one. -/
theorem HeapBlock.FilledTo.alloc_behind (h : hb.FilledTo addr size x) (hn : 1 ≤ n) (hx : 2 ≤ x)
    (hroom : 16 * (x + divUp n 16) ≤ size - 20) (hlt : size ≤ word32) :
    ∃ hb', heapAllocBlock peek hb n = some ((16 * x + addr + 20) % word32, hb') ∧
      hb'.FilledTo addr size (x + divUp n 16) := by
  have hcells : 1 ≤ divUp n 16 := by
    rw [divUp_sixteen]
    omega
  have hcount := h.toTakenTo.blockCount_eq
  have hlfb := h.lfb_eq
  have hhere : ∀ fuel, heapScan hb (divUp n 16) (fuel + 1) x false = some x := fun fuel =>
    h.toTakenTo.scan_here hcells (by omega) (by omega) fuel false
  refine h.toTakenTo.alloc peek hn (by omega) hroom hlt ?_
  rw [if_neg (by omega)]
  rcases hlfb with hlfb | hlfb
  · rw [hlfb]
    exact hhere _
  -- the last cell of the last allocation is looked at once more
  · have hlast : hb.marks (hb.lfb + 1) ≠ 0 := h.taken _ (by omega)
    have hnext : hb.lfb + 1 + 1 = x := by omega
    rw [heapScan_inside _ false (by omega) (by omega), if_neg hlast, hnext]
    exact hhere _

theorem HeapBlock.FilledTo.full (h : hb.FilledTo addr size x)
    (hx : 16 * x ≤ size - 20) (hlast : size - 20 < 16 * (x + 1)) : hb.Full := by
  rw [HeapBlock.Full, h.size_eq, h.used_eq, h.blockSize_eq]
  simp only [word32] at *
  omega

theorem heapAlloc_full (hl : ∀ hb ∈ l, hb.Full) (hn : 16 ≤ n) (heap : Heap) :
    heapAlloc peek (l ++ heap) n = ((heapAlloc peek heap n).1, l ++ (heapAlloc peek heap n).2) := by
  induction l with
  | nil => rfl
  | cons hb l ih =>
    have hfull : heapAllocBlock peek hb n = none := by
      rw [heapAllocBlock, if_pos ((hl hb List.mem_cons_self).trans_le hn)]
    rw [List.cons_append, heapAlloc, hfull, Option.elim_none,
      ih fun k hk => hl k (List.mem_cons_of_mem _ hk)]
    rfl

theorem HeapFilledTo.alloc (h : HeapFilledTo heap l addr size x r) (hn : 16 ≤ n) (hx : 2 ≤ x)
    (hroom : 16 * (x + divUp n 16) ≤ size - 20) (hlt : size ≤ word32) :
    ∃ heap', heapAlloc peek heap n = ((16 * x + addr + 20) % word32, heap') ∧
      HeapFilledTo heap' l addr size (x + divUp n 16) r := by
  obtain ⟨hb, rfl, hfilled⟩ := h.filled
  obtain ⟨hb', halloc, hfilled'⟩ := hfilled.alloc_behind peek (by omega) hx hroom hlt
  refine ⟨l ++ hb' :: r, ?_, h.full, hb', rfl, hfilled'⟩
  rw [heapAlloc_full peek h.full hn, heapAlloc, halloc, Option.elim_some]

/-- In a block that ends below the top the pointer is the address of the cell. -/
theorem pointer_eq (hx : 16 * (x + 1) ≤ size - 20) (htop : addr + size ≤ word32) :
    (16 * x + addr + 20) % word32 = addr + 20 + 16 * x := by
  rw [Nat.mod_eq_of_lt (by omega)]
  omega

/-- The last allocation of a full block is freed. -/
theorem HeapBlock.FilledTo.freed {a : Alloc} {y : ℕ} (h : hb.FilledTo addr size y) (hmade : hb.Made)
    (ha : hb.Holds a x) (hlast : x + a.cells = y) (hy : y ≤ hb.blockCount) :
    (heapFreeBlock hb a.ptr).TakenTo addr size x := by
  have hused : hb.used = x + a.cells := h.used_eq.trans hlast.symm
  obtain ⟨hmark, hfree⟩ := heapFreeBlock_spec hmade ha (by omega) (by omega)
  refine ⟨hmark.base_eq.trans h.base_eq, hmark.size_eq.trans h.size_eq,
    hmark.blockSize_eq.trans h.blockSize_eq, fun i hi => ?_, fun i hi => ?_, by omega⟩
  · rw [hmark.marks_eq, setRange_of_not_mem _ _ (by omega)]
    exact h.taken i (by omega)
  · rw [hmark.marks_eq]
    by_cases hlow : i < y
    · rw [setRange_of_mem _ _ (by omega)]
    · rw [setRange_of_not_mem _ _ (by omega)]
      exact h.free i (by omega)

end Filled

end DosKernel
