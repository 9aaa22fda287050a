import DosKernel.Lib.Search

/-! The physical frame allocator. One bit of `word` stands for one page frame;
bit `f % 32` of word `f / 32` is frame `f`, whose address is `start + 4096 * f`.
The bitmap itself lies in the first 32 frames of the region it manages, which
only this allocator touches, so it is kept apart from the rest of the memory.
Addresses and sizes are 32-bit: every operation that can wrap says so. -/

namespace DosKernel

def bitmapPageSize : ℕ := 4096

/-- The number of values of a 32-bit unsigned integer. -/
def word32 : ℕ := 4294967296

/-- Pages are counted on from an address also where the additions wrap. -/
theorem nextPage_add (addr k : ℕ) : ((addr + bitmapPageSize) % word32 + k * bitmapPageSize) % word32 =
    (addr + (k + 1) * bitmapPageSize) % word32 := by
  rw [Nat.mod_add_mod, Nat.add_mul, Nat.one_mul, Nat.add_assoc, Nat.add_comm bitmapPageSize]

def issetBit (reg : BitVec 32) (bit : ℕ) : Bool := (reg &&& (1#32 <<< bit)) != 0#32

def enableBit (reg : BitVec 32) (bit : ℕ) : BitVec 32 := reg ||| (1#32 <<< bit)

def disableBit (reg : BitVec 32) (bit : ℕ) : BitVec 32 := reg &&& ~~~(1#32 <<< bit)

theorem getLsbD_one_shiftLeft {j k : ℕ} (hk : k < 32) :
    (1#32 <<< j).getLsbD k = decide (k = j) := by
  simp only [BitVec.getLsbD_shiftLeft, BitVec.getLsbD_one, hk, decide_true, Bool.true_and]
  by_cases h : k < j
  · simp [h]; omega
  · have : k - j = 0 ↔ k = j := by omega
    simp [h, this]

theorem getLsbD_enableBit (w : BitVec 32) {j k : ℕ} (hk : k < 32) :
    (enableBit w j).getLsbD k = (w.getLsbD k || decide (k = j)) := by
  rw [enableBit, BitVec.getLsbD_or, getLsbD_one_shiftLeft hk]

theorem getLsbD_disableBit (w : BitVec 32) {j k : ℕ} (hk : k < 32) :
    (disableBit w j).getLsbD k = (w.getLsbD k && !decide (k = j)) := by
  rw [disableBit, BitVec.getLsbD_and, BitVec.getLsbD_not, getLsbD_one_shiftLeft hk]
  simp [hk]

theorem issetBit_eq (w : BitVec 32) {j : ℕ} (hj : j < 32) : issetBit w j = w.getLsbD j := by
  rw [issetBit, Bool.eq_iff_iff, bne_iff_ne, Ne, ← not_iff_not, not_not]
  constructor
  · intro h
    have := congrArg (fun v => BitVec.getLsbD v j) h
    simpa [getLsbD_one_shiftLeft hj] using this
  · intro h
    refine BitVec.eq_of_getLsbD_eq fun k hk => ?_
    rw [BitVec.getLsbD_and, getLsbD_one_shiftLeft hk]
    by_cases hkj : k = j
    · subst hkj; simpa using h
    · simp [hkj]

/-- The static variables of the allocator: `start_addr`, `frames`, `bitmap`. -/
structure Bitmap where
  start : ℕ
  frames : ℕ
  word : ℕ → BitVec 32

namespace Bitmap

/-- `frames / (sizeof(uint32_t) * 8)`, the number of words that are searched. -/
def len (b : Bitmap) : ℕ := b.frames / 32

/-- `bitmap[i] = w`. -/
def setWord (b : Bitmap) (i : ℕ) (w : BitVec 32) : Bitmap :=
  { b with word := Function.update b.word i w }

@[simp] theorem setWord_start (b : Bitmap) (i : ℕ) (w : BitVec 32) :
    (b.setWord i w).start = b.start := rfl

@[simp] theorem setWord_frames (b : Bitmap) (i : ℕ) (w : BitVec 32) :
    (b.setWord i w).frames = b.frames := rfl

def bit (b : Bitmap) (f : ℕ) : Bool := (b.word (f / 32)).getLsbD (f % 32)

/-- `start_addr + (i * sizeof(uint32_t) * 8 + j) * BITMAP_PAGE_SIZE`. -/
def frameAddr (b : Bitmap) (i j : ℕ) : ℕ :=
  (b.start + (i * 32 + j) * bitmapPageSize) % word32

theorem issetBit_word (b : Bitmap) {i j : ℕ} (hj : j < 32) :
    issetBit (b.word i) j = b.bit (i * 32 + j) := by
  rw [issetBit_eq _ hj, bit]
  congr 2 <;> omega

end Bitmap

/-- `memset` of the first `n` bytes of an array of little-endian words to zero. -/
def memsetZeroWords (word : ℕ → BitVec 32) (n : ℕ) : ℕ → BitVec 32 := fun i =>
  let k := 8 * min 4 (n - 4 * i)
  (word i >>> k) <<< k

/-- `bitmap_init`. The words keep what memory held where `memset` does not reach. -/
def bitmapInit (memory : ℕ → BitVec 32) (startAddress maxMemory : ℕ) : Bitmap :=
  let start :=
    if startAddress % bitmapPageSize ≠ 0 then
      (startAddress + (bitmapPageSize - startAddress % bitmapPageSize)) % word32
    else startAddress
  let maxMem := (maxMemory + word32 - start) % word32
  let maxMem :=
    if maxMem % bitmapPageSize ≠ 0 then
      (maxMem + (bitmapPageSize - maxMem % bitmapPageSize)) % word32
    else maxMem
  let frames := maxMem / bitmapPageSize
  { start := start
    frames := frames
    word := Function.update (memsetZeroWords memory (frames / 8)) 0 0xFFFFFFFF#32 }

def bitmapAllocPage (b : Bitmap) : ℕ × Bitmap :=
  match Lib.scan b.len 32 fun i j => !issetBit (b.word i) j with
  | some (i, j) =>
    (b.frameAddr i j, b.setWord i (enableBit (b.word i) j))
  | none => (0, b)

/-- The inner search of `bitmap_alloc_contiguous_pages`: `k` more pages are
wanted from position `(ii, jj)` on. -/
def contiguousFree (b : Bitmap) : (k ii jj : ℕ) → Bool
  | 0, _, _ => true
  | k + 1, ii, jj =>
    let ii' := if jj = 32 then ii + 1 else ii
    let jj' := if jj = 32 then 0 else jj
    if ii' = b.len then false
    else if issetBit (b.word ii') jj' then false
    else contiguousFree b k ii' (jj' + 1)

/-- The marking loop of `bitmap_alloc_contiguous_pages`. -/
def markPages (b : Bitmap) : (k ii jj : ℕ) → Bitmap
  | 0, _, _ => b
  | k + 1, ii, jj =>
    let ii' := if jj = 32 then ii + 1 else ii
    let jj' := if jj = 32 then 0 else jj
    markPages (b.setWord ii' (enableBit (b.word ii') jj')) k ii' (jj' + 1)

def bitmapAllocContiguousPages (b : Bitmap) (pages : ℕ) : ℕ × Bitmap :=
  match Lib.scan b.len 32 fun i j =>
      !issetBit (b.word i) j && contiguousFree b (pages - 1) i (j + 1) with
  | some (i, j) => (b.frameAddr i j, markPages b pages i j)
  | none => (0, b)

/-- `(addr - start_addr) / BITMAP_PAGE_SIZE` stored in a `size_t`: the difference
of two pointers is a signed 32-bit number and the division is signed. -/
def pageIndex (start addr : ℕ) : ℕ :=
  ((Int.bmod ((addr : ℤ) - start) word32).tdiv bitmapPageSize % word32).toNat

def bitmapFreePages (b : Bitmap) (addr : ℕ) : (pages : ℕ) → Bitmap
  | 0 => b
  | pages + 1 =>
    let index := pageIndex b.start addr
    bitmapFreePages (b.setWord (index / 32) (disableBit (b.word (index / 32)) (index % 32)))
      ((addr + bitmapPageSize) % word32) pages

/-- The `popcnt` instruction: the number of set bits. -/
def popcnt32 (v : BitVec 32) : ℕ := (List.range 32).countP v.getLsbD

/-- `popcnt64` as built for 32-bit targets: the two halves of the value. -/
def popcnt64 (v : BitVec 64) : ℕ :=
  popcnt32 (v &&& 0xFFFFFFFF#64).toNat + popcnt32 (v >>> 32).toNat

def cpuidFeatEcxPopcnt : BitVec 32 := 1#32 <<< 23

/-- The loop body of `bitmap_allocated_pages` for one word. -/
def wordAllocated (ecx : BitVec 32) (w : BitVec 32) : ℕ :=
  if ecx &&& cpuidFeatEcxPopcnt ≠ 0#32 then popcnt64 (w.setWidth 64)
  else (List.range 32).countP (issetBit w)

/-- `bitmap_allocated_pages` on a processor whose feature word is `ecx`. -/
def bitmapAllocatedPages (ecx : BitVec 32) (b : Bitmap) : ℕ :=
  ((List.range b.len).map fun i => wordAllocated ecx (b.word i)).sum

def bitmapTotalPages (b : Bitmap) : ℕ := b.frames

/-! ### What the loops compute, frame by frame -/

theorem bit_enable (b : Bitmap) (i : ℕ) {j : ℕ} (hj : j < 32) (g : ℕ) :
    (b.setWord i (enableBit (b.word i) j)).bit g = (b.bit g || decide (g = i * 32 + j)) := by
  simp only [Bitmap.bit, Bitmap.setWord]
  by_cases hi : g / 32 = i
  · subst hi
    rw [Function.update_self, getLsbD_enableBit _ (Nat.mod_lt _ (by norm_num))]
    have : g % 32 = j ↔ g = g / 32 * 32 + j := by omega
    simp only [this]
  · have : g ≠ i * 32 + j := by omega
    simp [Function.update_of_ne hi, this]

theorem bit_disable (b : Bitmap) (i : ℕ) {j : ℕ} (hj : j < 32) (g : ℕ) :
    (b.setWord i (disableBit (b.word i) j)).bit g = (b.bit g && !decide (g = i * 32 + j)) := by
  simp only [Bitmap.bit, Bitmap.setWord]
  by_cases hi : g / 32 = i
  · subst hi
    rw [Function.update_self, getLsbD_disableBit _ (Nat.mod_lt _ (by norm_num))]
    have : g % 32 = j ↔ g = g / 32 * 32 + j := by omega
    simp only [this]
  · have : g ≠ i * 32 + j := by omega
    simp [Function.update_of_ne hi, this]

/-- The search succeeds exactly when the `k` positions after `(ii, jj)` are
inside the bitmap and clear. -/
theorem contiguousFree_iff (b : Bitmap) (k : ℕ) : ∀ {ii jj : ℕ}, ii < b.len → jj ≤ 32 →
    (contiguousFree b k ii jj = true ↔
      ∀ g, ii * 32 + jj ≤ g → g < ii * 32 + jj + k → g < b.len * 32 ∧ b.bit g = false) := by
  induction k with
  | zero => intro ii jj _ _; simp [contiguousFree]; omega
  | succ k ih =>
    intro ii jj hii hjj
    obtain ⟨i, j, hi, hj, hij, hij'⟩ : ∃ i j, i = (if jj = 32 then ii + 1 else ii) ∧
        j = (if jj = 32 then 0 else jj) ∧ i * 32 + j = ii * 32 + jj ∧ j < 32 := by
      refine ⟨_, _, rfl, rfl, ?_, ?_⟩ <;> split_ifs <;> omega
    have hile : i ≤ b.len := by rw [hi]; split_ifs <;> omega
    rw [contiguousFree]
    simp only [← hi, ← hj, ← hij]
    by_cases hend : i = b.len
    · simp only [hend, if_true, Bool.false_eq_true, false_iff, not_forall]
      exact ⟨b.len * 32 + j, le_rfl, by omega, fun h => absurd h.1 (by omega)⟩
    · have hi' : i < b.len := by omega
      rw [if_neg hend, b.issetBit_word hij']
      rcases hb : b.bit (i * 32 + j) with _ | _
      · simp only [Bool.false_eq_true, if_false]
        rw [ih hi' (by omega)]
        constructor
        · intro h g hg hg'
          rcases Nat.eq_or_lt_of_le hg with rfl | hlt
          · exact ⟨by omega, hb⟩
          · exact h g (by omega) (by omega)
        · intro h g hg hg'
          exact h g (by omega) (by omega)
      · simp only [if_true, Bool.false_eq_true, false_iff, not_forall]
        exact ⟨i * 32 + j, le_rfl, by omega, by simp [hb]⟩

theorem bit_markPages (k : ℕ) : ∀ (b : Bitmap) {ii jj : ℕ}, jj ≤ 32 → ∀ g,
    (markPages b k ii jj).bit g =
      (b.bit g || decide (ii * 32 + jj ≤ g ∧ g < ii * 32 + jj + k)) := by
  induction k with
  | zero => intro b ii jj _ g; simp [markPages]
  | succ k ih =>
    intro b ii jj hjj g
    obtain ⟨i, j, hi, hj, hij, hij'⟩ : ∃ i j, i = (if jj = 32 then ii + 1 else ii) ∧
        j = (if jj = 32 then 0 else jj) ∧ i * 32 + j = ii * 32 + jj ∧ j < 32 := by
      refine ⟨_, _, rfl, rfl, ?_, ?_⟩ <;> split_ifs <;> omega
    rw [markPages]
    simp only [← hi, ← hj, ← hij]
    rw [ih _ (by omega), bit_enable b i hij', Bool.or_assoc, ← Bool.decide_or]
    congr 2
    rw [eq_iff_iff]
    omega

theorem markPages_start (k : ℕ) : ∀ (b : Bitmap) (ii jj : ℕ),
    (markPages b k ii jj).start = b.start := by
  induction k with
  | zero => intro b ii jj; rfl
  | succ k ih => intro b ii jj; rw [markPages, ih, Bitmap.setWord_start]

theorem markPages_frames (k : ℕ) : ∀ (b : Bitmap) (ii jj : ℕ),
    (markPages b k ii jj).frames = b.frames := by
  induction k with
  | zero => intro b ii jj; rfl
  | succ k ih => intro b ii jj; rw [markPages, ih, Bitmap.setWord_frames]

/-! ### Specifications of the operations -/

section Specs
variable (b : Bitmap)

/-- The `n` frames from `f` on are managed and clear. -/
def Bitmap.Free (f n : ℕ) : Prop := ∀ g, f ≤ g → g < f + n → g < b.len * 32 ∧ b.bit g = false

/-- A bitmap that differs from `b` in exactly the bits of `n` frames from `f` on,
which are set. -/
structure Bitmap.Marks (b' : Bitmap) (f n : ℕ) : Prop where
  start_eq : b'.start = b.start
  frames_eq : b'.frames = b.frames
  bit_eq : ∀ g, b'.bit g = (b.bit g || decide (f ≤ g ∧ g < f + n))

/-- Either no run of `n` clear frames exists and nothing changes, or the lowest
such run is marked and its address returned. -/
theorem bitmapAllocContiguousPages_spec {n : ℕ} (hn : 1 ≤ n) :
    (bitmapAllocContiguousPages b n = (0, b) ∧ ∀ f, ¬ b.Free f n) ∨
    ∃ f b', bitmapAllocContiguousPages b n = ((b.start + f * bitmapPageSize) % word32, b') ∧
      b.Free f n ∧ b.Marks b' f n ∧ ∀ f' < f, ¬ b.Free f' n := by
  have hq : ∀ i < b.len, ∀ j < 32,
      (!issetBit (b.word i) j && contiguousFree b (n - 1) i (j + 1)) = true ↔
        b.Free (i * 32 + j) n := by
    intro i hi j hj
    rw [Bool.and_eq_true, contiguousFree_iff b _ hi (by omega), b.issetBit_word hj]
    simp only [Bool.not_eq_true', Bitmap.Free]
    constructor
    · rintro ⟨h0, h⟩ g hg hg'
      rcases Nat.eq_or_lt_of_le hg with rfl | hlt
      · exact ⟨by omega, h0⟩
      · exact h g (by omega) (by omega)
    · intro h
      exact ⟨(h _ le_rfl (by omega)).2, fun g hg hg' => h g (by omega) (by omega)⟩
  have hpos : ∀ f, b.Free f n → f / 32 < b.len := by
    intro f hf
    have := (hf f le_rfl (by omega)).1
    omega
  have hsplit : ∀ f, b.Free f n ↔ b.Free (f / 32 * 32 + f % 32) n := by
    intro f; rw [show f / 32 * 32 + f % 32 = f by omega]
  unfold bitmapAllocContiguousPages
  split
  next i j hs =>
    obtain ⟨hi, hj, hij, hlow⟩ := Lib.scan_eq_some hs
    refine Or.inr ⟨i * 32 + j, _, rfl, (hq i hi j hj).mp hij,
      ⟨markPages_start .., markPages_frames .., fun g => bit_markPages n b (by omega) g⟩, ?_⟩
    intro f' hf' hfree
    have := hlow (f' / 32) (hpos f' hfree) (f' % 32) (Nat.mod_lt _ (by norm_num)) (by omega)
    rw [(hq _ (hpos f' hfree) _ (Nat.mod_lt _ (by norm_num))).mpr ((hsplit f').mp hfree)] at this
    cases this
  next hs =>
    refine Or.inl ⟨rfl, fun f hfree => ?_⟩
    have := Lib.scan_eq_none.mp hs (f / 32) (hpos f hfree) (f % 32) (Nat.mod_lt _ (by norm_num))
    rw [(hq _ (hpos f hfree) _ (Nat.mod_lt _ (by norm_num))).mpr ((hsplit f).mp hfree)] at this
    cases this

theorem bitmapAllocPage_eq : bitmapAllocPage b = bitmapAllocContiguousPages b 1 := by
  unfold bitmapAllocPage bitmapAllocContiguousPages
  simp only [Nat.sub_self, contiguousFree, Bool.and_true]
  split
  next i j hs =>
    have hj := (Lib.scan_eq_some hs).2.1
    simp [markPages, show j ≠ 32 by omega]
  next => rfl

/-- The allocation takes the lowest run of `n` clear frames and sets its bits, and fails
without a change when there is none; a single page is the case `n = 1`. -/
theorem alloc_first_fit {n : ℕ} (hn : 1 ≤ n) :
    (∀ f, b.Free f n → (∀ f' < f, ¬ b.Free f' n) → ∃ b',
      bitmapAllocContiguousPages b n = ((b.start + f * bitmapPageSize) % word32, b') ∧
        b.Marks b' f n) ∧
    (bitmapAllocContiguousPages b n = (0, b) ↔ ∀ f, ¬ b.Free f n) ∧
    bitmapAllocPage b = bitmapAllocContiguousPages b 1 := by
  refine ⟨fun f hfree hlow => ?_, ⟨fun hnull f hfree => ?_, fun hnone => ?_⟩, bitmapAllocPage_eq b⟩
  · rcases bitmapAllocContiguousPages_spec b hn with ⟨-, hnone⟩ | ⟨g, b', heq, hg, hm, hlow'⟩
    · exact absurd hfree (hnone f)
    · -- two lowest runs are the same
      have hle : ¬ g < f := fun h => hlow g h hg
      have hge : ¬ f < g := fun h => hlow' f h hfree
      obtain rfl : g = f := by omega
      exact ⟨b', heq, hm⟩
  · rcases bitmapAllocContiguousPages_spec b hn with ⟨-, hnone⟩ | ⟨g, b', heq, hg, hm, -⟩
    · exact hnone f hfree
    · rw [hnull] at heq
      obtain rfl : b = b' := congrArg Prod.snd heq
      have hset := hm.bit_eq g
      rw [(hg g le_rfl (by omega)).2] at hset
      simp at hset
      omega
  · rcases bitmapAllocContiguousPages_spec b hn with ⟨heq, -⟩ | ⟨g, -, -, hg, -⟩
    · exact heq
    · exact absurd hg (hnone g)

/-- 64 frames at 1 MiB; of the second word the bits 0 and 2 are set. -/
def holedBitmap : Bitmap := ⟨0x100000, 64, fun i => if i = 0 then 0xFFFFFFFF#32 else 5#32⟩

/-- Two pages do not fit between the set bits. -/
theorem alloc_first_fit_two :
    (bitmapAllocContiguousPages holedBitmap 2).1 = 0x123000 ∧
    (bitmapAllocContiguousPages holedBitmap 2 = (0, holedBitmap) ↔
      ∀ f, ¬ holedBitmap.Free f 2) :=
  ⟨by decide, (alloc_first_fit holedBitmap (by decide)).2.1⟩

theorem pageIndex_of_lt {start f : ℕ} (hf : f < 524288) :
    pageIndex start (start + f * bitmapPageSize) = f := by
  unfold pageIndex
  have h : ((start + f * bitmapPageSize : ℕ) : ℤ) - start = ((f * 4096 : ℕ) : ℤ) := by
    push_cast [bitmapPageSize]; ring
  have hb : Int.bmod ((f * 4096 : ℕ) : ℤ) word32 = ((f * 4096 : ℕ) : ℤ) := by
    rw [Int.bmod_def]
    split_ifs with hlt <;> (simp only [word32] at *; omega)
  rw [h, hb, bitmapPageSize, Int.tdiv_eq_ediv_of_nonneg (by omega)]
  simp only [word32]
  omega

theorem bitmapFreePages_start (n : ℕ) : ∀ (b : Bitmap) (addr : ℕ),
    (bitmapFreePages b addr n).start = b.start := by
  induction n with
  | zero => intro b addr; rfl
  | succ n ih => intro b addr; rw [bitmapFreePages, ih, Bitmap.setWord_start]

theorem bitmapFreePages_frames (n : ℕ) : ∀ (b : Bitmap) (addr : ℕ),
    (bitmapFreePages b addr n).frames = b.frames := by
  induction n with
  | zero => intro b addr; rfl
  | succ n ih => intro b addr; rw [bitmapFreePages, ih, Bitmap.setWord_frames]

/-- Freeing a range of a region below 2 GiB clears exactly its bits. -/
theorem bit_bitmapFreePages {n : ℕ} : ∀ (b : Bitmap) {f : ℕ}, f + n ≤ 524288 →
    b.start + (f + n) * bitmapPageSize ≤ word32 → ∀ g,
      (bitmapFreePages b (b.start + f * bitmapPageSize) n).bit g =
        (b.bit g && !decide (f ≤ g ∧ g < f + n)) := by
  induction n with
  | zero => intro b f _ _ g; simp [bitmapFreePages]; omega
  | succ n ih =>
    intro b f hf htop g
    rw [bitmapFreePages, pageIndex_of_lt (by omega)]
    rcases Nat.eq_zero_or_pos n with rfl | hn
    · rw [bitmapFreePages, bit_disable b _ (Nat.mod_lt _ (by norm_num))]
      congr 2
      rw [decide_eq_decide]
      omega
    · have hnext : (b.start + f * bitmapPageSize + bitmapPageSize) % word32 =
          b.start + (f + 1) * bitmapPageSize := by
        rw [Nat.mod_eq_of_lt] <;> simp only [bitmapPageSize, word32] at * <;> omega
      rw [hnext]
      rw [← b.setWord_start (f / 32) (disableBit (b.word (f / 32)) (f % 32)),
        ih _ (by omega) (by rw [show f + 1 + n = f + (n + 1) by omega]; exact htop),
        bit_disable b (f / 32) (Nat.mod_lt f (by norm_num)), Bool.and_assoc, ← Bool.not_or,
        ← Bool.decide_or]
      have : (g = f / 32 * 32 + f % 32 ∨ f + 1 ≤ g ∧ g < f + 1 + n) ↔
          f ≤ g ∧ g < f + (n + 1) := by omega
      rw [decide_eq_decide.mpr this]

end Specs

end DosKernel
