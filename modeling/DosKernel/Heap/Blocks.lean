import DosKernel.Frames.Bitmap

/-! The kernel heap. A heap block is a header followed by an array of mark bytes,
one for each cell of `blockSize` bytes; the cells start right behind the header,
so the first of them hold the marks themselves. A mark is `0` for a free cell
and otherwise the id of the allocation the cell belongs to. The extent of an
allocation is not stored: it ends where the id changes. -/

namespace DosKernel

def sizeofHeapBlock : ℕ := 20

/-- `struct heap_block` at address `base`, with its mark bytes. -/
structure HeapBlock where
  base : ℕ
  size : ℕ
  used : ℕ
  blockSize : ℕ
  lfb : ℕ
  marks : ℕ → UInt8

/-- The blocks from `first_block` along `next`. -/
abbrev Heap := List HeapBlock

namespace HeapBlock

/-- `hb->size / hb->block_size`. -/
def blockCount (hb : HeapBlock) : ℕ := hb.size / hb.blockSize

def cell (hb : HeapBlock) (i : ℕ) : ℕ := hb.base + sizeofHeapBlock + hb.blockSize * i

/-- `bitmap[i]`. Behind the marks the array runs into other memory, whose bytes
`peek` gives. -/
def byteAt (peek : ℕ → UInt8) (hb : HeapBlock) (i : ℕ) : UInt8 :=
  if i < hb.blockCount then hb.marks i else peek (hb.base + sizeofHeapBlock + i)

end HeapBlock

/-- `n` values of `f` from `x` on replaced by `v`. -/
def setRange {α : Type*} (f : ℕ → α) (x n : ℕ) (v : α) : ℕ → α :=
  fun i => if x ≤ i ∧ i < x + n then v else f i

/-- The quotient rounded up, as `heap.c` writes it. -/
def divUp (n d : ℕ) : ℕ := if n / d * d < n then n / d + 1 else n / d

def heapInit : Heap := []

/-- `heap_add_block`. A block at `NULL` makes `first_block` a null pointer, and
with it the list empty. -/
def heapAddBlock (this : Heap) (addr size blockSize : ℕ) : Heap :=
  let size := (size + word32 - sizeofHeapBlock) % word32
  let reserved := divUp (size / blockSize) blockSize
  if addr = 0 then []
  else
    { base := addr
      size := size
      used := reserved
      blockSize := blockSize
      lfb := (reserved + word32 - 1) % word32
      marks := setRange (fun _ => 0) 0 reserved 5 } :: this

/-- The loop of `heap_get_new_id`; at most 256 values of `c` are tried. -/
def heapGetNewIdFrom (b : UInt8) : (fuel : ℕ) → UInt8 → UInt8
  | 0, c => c
  | fuel + 1, c => if c = b ∨ c = 0 then heapGetNewIdFrom b fuel (c + 1) else c

def heapGetNewId (a b : UInt8) : UInt8 := heapGetNewIdFrom b 256 (a + 1)

/-- The counting loop of `heap_alloc`: free cells from `x + y` on, at most `fuel`
more of them. The byte read behind the last mark does not matter there. -/
def countFree (hb : HeapBlock) (x : ℕ) : (fuel y : ℕ) → ℕ
  | 0, y => y
  | fuel + 1, y =>
    if x + y < hb.blockCount ∧ hb.marks (x + y) = 0 then countFree hb x fuel (y + 1) else y

/-- The next-fit loop of `heap_alloc`: the first cell of a free run of `needed`
cells. The cursor moves on in every round and wraps once, so that
`2 * blockCount + 2` rounds are more than the loop makes. -/
def heapScan (hb : HeapBlock) (needed : ℕ) : (fuel x : ℕ) → (wrapped : Bool) → Option ℕ
  | 0, _, _ => none
  | fuel + 1, x, wrapped =>
    if x = hb.lfb then none
    else if hb.blockCount ≤ x ∧ wrapped then none
    else
      let x' := if hb.blockCount ≤ x then 0 else x
      let wrapped' := wrapped || decide (hb.blockCount ≤ x)
      if hb.marks x' = 0 then
        let y := countFree hb x' needed 0
        if y = needed then some x' else heapScan hb needed fuel (x' + y) wrapped'
      else heapScan hb needed fuel (x' + 1) wrapped'

/-- The body of the block loop of `heap_alloc`. -/
def heapAllocBlock (peek : ℕ → UInt8) (hb : HeapBlock) (size : ℕ) : Option (ℕ × HeapBlock) :=
  if (hb.size + word32 - hb.used * hb.blockSize % word32) % word32 < size then none
  else
    let needed := divUp size hb.blockSize
    let start := if hb.blockCount ≤ hb.lfb + 1 then 0 else hb.lfb + 1
    match heapScan hb needed (2 * hb.blockCount + 2) start false with
    | none => none
    | some x =>
      -- `bitmap[x - 1]` is the last byte of the header when `x` is 0
      let left := if x = 0 then peek (hb.base + sizeofHeapBlock - 1) else hb.byteAt peek (x - 1)
      let newId := heapGetNewId left (hb.byteAt peek (x + needed))
      some ((x * hb.blockSize + hb.base + sizeofHeapBlock) % word32,
        { hb with
          marks := setRange hb.marks x needed newId
          lfb := (x + needed + word32 - 2) % word32
          used := hb.used + needed })

/-- `heap_alloc`: the first block that has room. -/
def heapAlloc (peek : ℕ → UInt8) : Heap → ℕ → ℕ × Heap
  | [], _ => (0, [])
  | hb :: rest, size =>
    (heapAllocBlock peek hb size).elim
      (let r := heapAlloc peek rest size; (r.1, hb :: r.2)) fun r => (r.1, r.2 :: rest)

/-- The clearing loop of `heap_free`: the end of the run of marks `id` from `x`. -/
def runEnd (hb : HeapBlock) (id : UInt8) : (fuel x : ℕ) → ℕ
  | 0, x => x
  | fuel + 1, x =>
    if hb.marks x = id ∧ x < hb.blockCount then runEnd hb id fuel (x + 1) else x

/-- The address test of `heap_free`. The sum that bounds the block is 32-bit. -/
def HeapBlock.owns (hb : HeapBlock) (addr : ℕ) : Bool :=
  decide (hb.base < addr) && decide (addr < (hb.base + sizeofHeapBlock + hb.size) % word32)

/-- Clearing in the block that owns the address. -/
def heapFreeBlock (hb : HeapBlock) (addr : ℕ) : HeapBlock :=
  let bi := (addr + word32 - (hb.base + sizeofHeapBlock)) % word32 / hb.blockSize
  let x := runEnd hb (hb.marks bi) (hb.blockCount - bi) bi
  { hb with
    marks := setRange hb.marks bi (x - bi) 0
    used := (hb.used + word32 - (x - bi)) % word32 }

def heapFree : Heap → ℕ → Bool × Heap
  | [], _ => (false, [])
  | hb :: rest, addr =>
    if hb.owns addr then (true, heapFreeBlock hb addr :: rest)
    else let r := heapFree rest addr; (r.1, hb :: r.2)

/-! ### What the loops compute -/

theorem setRange_of_mem {α : Type*} (f : ℕ → α) {x n i : ℕ} (v : α) (h : x ≤ i ∧ i < x + n) :
    setRange f x n v i = v := if_pos h

theorem setRange_of_not_mem {α : Type*} (f : ℕ → α) {x n i : ℕ} (v : α)
    (h : ¬ (x ≤ i ∧ i < x + n)) : setRange f x n v i = f i := if_neg h

theorem divUp_sixteen (n : ℕ) : divUp n 16 = (n + 15) / 16 := by
  unfold divUp
  split_ifs <;> omega

/-- A new id differs from both neighbours and is not the free mark. -/
theorem heapGetNewId_spec (a b : UInt8) :
    heapGetNewId a b ≠ a ∧ heapGetNewId a b ≠ b ∧ heapGetNewId a b ≠ 0 := by
  have hplus : ∀ x y : UInt8, y ≠ 0 → x + y ≠ x := fun x y hy h => hy (UInt8.add_eq_left.mp h)
  have hone : ∀ x : UInt8, x + 1 ≠ x := fun x => hplus x 1 (by decide)
  have htwo : ∀ x : UInt8, x + 1 + 1 ≠ x := fun x => by
    rw [UInt8.add_assoc]
    exact hplus x (1 + 1) (by decide)
  have hthird : a + 1 + 1 + 1 ≠ a := by
    rw [UInt8.add_assoc, UInt8.add_assoc]
    exact hplus a (1 + (1 + 1)) (by decide)
  -- three successive values are distinct, so that at most two of them are `b` or `0`
  have hthree : ¬ ((a + 1 = b ∨ a + 1 = 0) ∧ (a + 1 + 1 = b ∨ a + 1 + 1 = 0) ∧
      (a + 1 + 1 + 1 = b ∨ a + 1 + 1 + 1 = 0)) := by
    rintro ⟨e1 | e1, e2 | e2, e3 | e3⟩
    all_goals first
      | exact hone (a + 1) (e2.trans e1.symm)
      | exact hone (a + 1 + 1) (e3.trans e2.symm)
      | exact htwo (a + 1) (e3.trans e1.symm)
  unfold heapGetNewId heapGetNewIdFrom
  by_cases hc1 : a + 1 = b ∨ a + 1 = 0
  · rw [if_pos hc1]
    unfold heapGetNewIdFrom
    by_cases hc2 : a + 1 + 1 = b ∨ a + 1 + 1 = 0
    · rw [if_pos hc2]
      unfold heapGetNewIdFrom
      have hc3 : ¬ (a + 1 + 1 + 1 = b ∨ a + 1 + 1 + 1 = 0) := fun hc3 => hthree ⟨hc1, hc2, hc3⟩
      rw [if_neg hc3]
      exact ⟨hthird, not_or.mp hc3⟩
    · rw [if_neg hc2]
      exact ⟨htwo a, not_or.mp hc2⟩
  · rw [if_neg hc1]
    exact ⟨hone a, not_or.mp hc1⟩

theorem countFree_spec (hb : HeapBlock) (x fuel : ℕ) : ∀ y, y ≤ countFree hb x fuel y ∧
    ∀ i, y ≤ i → i < countFree hb x fuel y → x + i < hb.blockCount ∧ hb.marks (x + i) = 0 := by
  induction fuel with
  | zero => intro y; simp only [countFree]; exact ⟨le_rfl, by omega⟩
  | succ fuel ih =>
    intro y
    unfold countFree
    split_ifs with h
    · obtain ⟨hle, hall⟩ := ih (y + 1)
      refine ⟨by omega, fun i hi hi' => ?_⟩
      rcases Nat.eq_or_lt_of_le hi with rfl | hlt
      · exact h
      · exact hall i hlt hi'
    · exact ⟨le_rfl, by omega⟩

/-- The search only stops at a run of free cells inside the block. -/
theorem heapScan_spec (hb : HeapBlock) (needed fuel : ℕ) : ∀ x wrapped r,
    heapScan hb needed fuel x wrapped = some r →
      ∀ i < needed, r + i < hb.blockCount ∧ hb.marks (r + i) = 0 := by
  induction fuel with
  | zero => intro x wrapped r h; simp [heapScan] at h
  | succ fuel ih =>
    intro x wrapped r h
    rw [heapScan] at h
    split at h
    · cases h
    split at h
    · cases h
    generalize (if hb.blockCount ≤ x then 0 else x) = x' at h
    dsimp only at h
    split at h
    · split at h
      next hy =>
        obtain ⟨-, hall⟩ := countFree_spec hb x' needed 0
        rw [hy] at hall
        rw [← Option.some.inj h]
        exact fun i hi => hall i (Nat.zero_le i) hi
      next => exact ih _ _ _ h
    · exact ih _ _ _ h

/-- The clearing loop stops behind the run of equal marks. -/
theorem runEnd_eq (hb : HeapBlock) (id : UInt8) (n : ℕ) : ∀ {fuel x : ℕ},
    (∀ i < n, hb.marks (x + i) = id ∧ x + i < hb.blockCount) →
    (x + n < hb.blockCount → hb.marks (x + n) ≠ id) → n ≤ fuel →
    runEnd hb id fuel x = x + n := by
  induction n with
  | zero =>
    intro fuel x _ hend _
    cases fuel with
    | zero => rfl
    | succ fuel =>
      rw [runEnd, if_neg fun h => hend h.2 h.1]
      rfl
  | succ n ih =>
    intro fuel x hrun hend hfuel
    obtain ⟨fuel, rfl⟩ : ∃ k, fuel = k + 1 := ⟨fuel - 1, by omega⟩
    have h0 := hrun 0 (by omega)
    rw [Nat.add_zero] at h0
    rw [runEnd, if_pos h0, ih (x := x + 1)]
    · omega
    · intro i hi
      rw [show x + 1 + i = x + (i + 1) by omega]
      exact hrun (i + 1) (by omega)
    · rw [show x + 1 + n = x + (n + 1) by omega]
      exact hend
    · omega

end DosKernel
