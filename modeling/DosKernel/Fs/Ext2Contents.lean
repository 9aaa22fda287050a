import DosKernel.Fs.Copying
import DosKernel.Fs.Ext2Walk

/-! What an ext2 file holds, and when `ext2_read` from a block boundary gives it. The blocks
that the loops come to are put one behind the other; the read is right if each of them holds
the bytes of the block of the file in whose place it is put. -/

namespace DosKernel

open Lib

/-! ### Blocks on the drive -/

namespace Ext2Volume
variable (f : Ext2Volume)

/-- Byte `j` of a block, at its place on the drive. -/
def storedByte (p j : ℕ) : UInt8 :=
  f.driver.sector (f.startLba + (p * f.blockSize + j) / f.driver.sectorSize)
    ((p * f.blockSize + j) % f.driver.sectorSize)

/-- The pointer `i` that is stored in a block of pointers. -/
def entry (p i : ℕ) : ℕ :=
  (f.storedByte p (4 * i)).toNat + 256 * (f.storedByte p (4 * i + 1)).toNat +
    65536 * (f.storedByte p (4 * i + 2)).toNat + 16777216 * (f.storedByte p (4 * i + 3)).toNat

/-- Byte `j` of a block where `ext2_read_block` looks for it. -/
def blockByte (p j : ℕ) : UInt8 :=
  f.driver.sector ((f.startLba + p * f.blockSize % word32 / f.driver.sectorSize +
    j / f.driver.sectorSize) % word32) (j % f.driver.sectorSize)

def children (p : ℕ) : List ℕ := f.pointers (f.blockByte p)

/-- The block is in the first 4 GiB of the volume, and its sectors have 32-bit numbers. -/
def Fits (p : ℕ) : Prop :=
  p * f.blockSize < word32 ∧ f.startLba + (p + 1) * f.blockSize / f.driver.sectorSize ≤ word32

instance (p : ℕ) : Decidable (f.Fits p) := inferInstanceAs (Decidable (_ ∧ _))

/-- The data pointers found below a pointer from block `o` of the file on, after the pointers
`ps`: a block of pointers is entered at a quarter of the blocks that are still to be skipped. -/
def foundBelow (o : ℕ) : (level : ℕ) → List ℕ → (pointer : ℕ) → List ℕ
  | 0, ps, pointer =>
    ps ++ ((f.children pointer).drop ((o - ps.length) / 4)).takeWhile (· ≠ 0)
  | level + 1, ps, pointer =>
    ((f.children pointer).takeWhile (· ≠ 0)).foldl (foundBelow o level) ps

variable {f} {p j o : ℕ}

theorem pointers_congr {b b' : ℕ → UInt8} (h : ∀ j < f.blockSize, b j = b' j) :
    f.pointers b = f.pointers b' := by
  refine List.map_congr_left fun i hi => ?_
  have hlt := List.mem_range.mp hi
  rw [h _ (by omega), h _ (by omega), h _ (by omega), h _ (by omega)]

theorem children_length (f : Ext2Volume) (p : ℕ) : (f.children p).length = f.blockSize / 4 := by
  simp [children, pointers]

theorem buffer_block (t : ℕ → UInt8) (p : ℕ) (hj : j < f.blockSize) :
    f.driver.buffer t f.blockSize
      ((List.range' (f.startLba + p * f.blockSize % word32 / f.driver.sectorSize)
        (f.blockSize / f.driver.sectorSize)).map fun a => f.driver.sector (a % word32)) j =
      f.blockByte p j := IoDriver.buffer_eq t f.sector_dvd hj

theorem Fits.blockByte_eq (h : f.Fits p) (hj : j < f.blockSize) :
    f.blockByte p j = f.storedByte p j := by
  have hpos := f.driver.sectorSize_pos
  obtain ⟨q, hq⟩ : f.driver.sectorSize ∣ f.blockSize := f.sector_dvd
  have hp : p * f.blockSize = f.driver.sectorSize * (p * q) := by
    rw [hq]
    ring
  have hjq : j / f.driver.sectorSize < q := Nat.div_lt_of_lt_mul (hq ▸ hj)
  obtain ⟨hlt, hdrive⟩ := h
  rw [Nat.succ_mul, hp, hq, ← Nat.mul_add, Nat.mul_div_cancel_left _ hpos] at hdrive
  rw [blockByte, storedByte, Nat.mod_eq_of_lt hlt, hp, Nat.mul_div_cancel_left _ hpos,
    Nat.mod_eq_of_lt (by omega), Nat.mul_add_div hpos, Nat.mul_add_mod, Nat.add_assoc]

theorem Fits.children_eq (h : f.Fits p) :
    f.children p = (List.range (f.blockSize / 4)).map (f.entry p) := by
  rw [children, pointers_congr fun j hj => h.blockByte_eq hj]
  rfl

theorem walkIndirect_found (h : f.driver.Answers) (t : ℕ → UInt8) (o level : ℕ) (ps : List ℕ)
    (pointer : ℕ) : f.walkIndirect t (o * f.blockSize) level (ps.map (f.readBlock t)) pointer =
      (f.foundBelow o level ps pointer).map (f.readBlock t) := by
  have hpointers : ∀ p, f.pointers (f.driver.buffer t f.blockSize
      ((List.range' (f.startLba + p * f.blockSize % word32 / f.driver.sectorSize)
        (f.blockSize / f.driver.sectorSize)).map fun a => f.driver.sector (a % word32))) =
      f.children p := fun p => pointers_congr fun j hj => buffer_block t p hj
  induction level generalizing ps pointer with
  | zero =>
    have hstart : (o * f.blockSize - ps.length * f.blockSize) / f.blockSize = o - ps.length := by
      rw [← Nat.sub_mul, Nat.mul_div_cancel _ f.blockSize_pos]
    rw [walkIndirect, readBlock_eq h]
    dsimp only
    rw [hpointers, List.length_map, hstart, ← Nat.sub_mul, Nat.mul_mod_left, blockFrom_zero, foundBelow,
      List.map_append]
  | succ level ih =>
    rw [walkIndirect, readBlock_eq h]
    dsimp only
    rw [hpointers, foundBelow]
    generalize (f.children pointer).takeWhile (· ≠ 0) = qs
    induction qs generalizing ps with
    | nil => rfl
    | cons q qs ihqs => rw [List.foldl_cons, List.foldl_cons, ih, ihqs]

/-- Once enough blocks were found, a block of pointers is taken from its start. -/
theorem foundBelow_leaves {ps : List ℕ} (h : o < ps.length + 4) (level pointer : ℕ) :
    f.foundBelow o level ps pointer = ps ++ PointerTree.leaves f.children level pointer := by
  induction level generalizing ps pointer with
  | zero => rw [foundBelow, PointerTree.leaves, show (o - ps.length) / 4 = 0 by omega, List.drop_zero]
  | succ level ih =>
    rw [foundBelow, PointerTree.leaves]
    generalize (f.children pointer).takeWhile (· ≠ 0) = qs
    induction qs generalizing ps with
    | nil => simp
    | cons q qs ihqs =>
      rw [List.foldl_cons, ih h, ihqs (by rw [List.length_append]; omega), List.flatMap_cons,
        List.append_assoc]

end Ext2Volume

/-! ### The bytes of a file -/

namespace Ext2File
variable (f : Ext2File)

def perBlock : ℕ := f.blockSize / 4

/-- The block that holds block `k` of the file; 0 is a hole. -/
def blockNumber (k : ℕ) : ℕ :=
  let n := f.perBlock
  if k < 12 then f.directBlockPointers.getD k 0
  else if k < 12 + n then PointerTree.lookup n f.entry 0 f.singlyIndirect (k - 12)
  else if k < 12 + n + n ^ 2 then PointerTree.lookup n f.entry 1 f.doublyIndirect (k - 12 - n)
  else if k < 12 + n + n ^ 2 + n ^ 3 then
    PointerTree.lookup n f.entry 2 f.triplyIndirect (k - 12 - n - n ^ 2)
  else 0

/-- The blocks of pointers on the way to block `k` of the file. -/
def blockPath (k : ℕ) : List ℕ :=
  let n := f.perBlock
  if k < 12 then []
  else if k < 12 + n then PointerTree.path n f.entry 0 f.singlyIndirect (k - 12)
  else if k < 12 + n + n ^ 2 then PointerTree.path n f.entry 1 f.doublyIndirect (k - 12 - n)
  else PointerTree.path n f.entry 2 f.triplyIndirect (k - 12 - n - n ^ 2)

/-- Byte `pos` of the file; a hole reads as zeros. -/
def fileByte (pos : ℕ) : UInt8 :=
  if f.blockNumber (pos / f.blockSize) = 0 then 0
  else f.storedByte (f.blockNumber (pos / f.blockSize)) (pos % f.blockSize)

/-- The data pointers in the order in which the loops come to them, from block `o` on. -/
def found (o : ℕ) : List ℕ :=
  let direct := (f.directBlockPointers.drop o).takeWhile (· ≠ 0)
  let singly := if f.singlyIndirect = 0 then direct else f.foundBelow o 0 direct f.singlyIndirect
  let doubly := if f.doublyIndirect = 0 then singly else f.foundBelow o 1 singly f.doublyIndirect
  if f.triplyIndirect = 0 then doubly else f.foundBelow o 2 doubly f.triplyIndirect

/-- The number of bytes that are asked for, after the comparisons with the size. -/
def clipped (count offset : ℕ) : ℕ := if f.size ≤ offset then 0 else clip f.size count offset

/-- The blocks that are found from block `o` on hold the next `n` bytes of the file. -/
def FindsBytes (o n : ℕ) : Prop :=
  ∀ k j, j < f.blockSize → k * f.blockSize + j < n →
    ∃ p, (f.found o)[k]? = some p ∧ f.blockByte p j = f.fileByte ((o + k) * f.blockSize + j)

/-- No block of the first `n` bytes is missing. -/
def HoleFree (n : ℕ) : Prop := ∀ k, k * f.blockSize < n → f.blockNumber k ≠ 0

/-- The blocks of the first `n` bytes, and those that hold the pointers to them, fit on the
volume. -/
def BlocksFit (n : ℕ) : Prop :=
  ∀ k, k * f.blockSize < n → f.Fits (f.blockNumber k) ∧ ∀ p ∈ f.blockPath k, f.Fits p

variable {f} {t : ℕ → UInt8} {count o n : ℕ}

theorem blockNumber_direct {i : ℕ} (hi : i < 12) :
    f.directBlockPointers[i]? = some (f.blockNumber i) := by
  have hlt : i < f.directBlockPointers.length := f.direct_length ▸ hi
  rw [blockNumber, if_pos hi, List.getD_eq_getElem?_getD, List.getElem?_eq_getElem hlt]
  rfl

/-- The blocks of a read from a block boundary. -/
theorem walk_found (h : f.driver.Answers) (t : ℕ → UInt8) (o : ℕ) :
    f.walk t (o * f.blockSize) = (f.found o).map (f.readBlock t) := by
  have hstep : ∀ level (ps : List ℕ) pointer, (if pointer = 0 then ps.map (f.readBlock t)
      else f.walkIndirect t (o * f.blockSize) level (ps.map (f.readBlock t)) pointer) =
      (if pointer = 0 then ps else f.foundBelow o level ps pointer).map (f.readBlock t) := by
    intro level ps pointer
    split_ifs
    · rfl
    · exact Ext2Volume.walkIndirect_found h t o level ps pointer
  rw [walk, Nat.mul_div_cancel _ f.blockSize_pos, Nat.mul_mod_left, Ext2Volume.blockFrom_zero,
    hstep, hstep, hstep]
  rfl

/-- Such a read gives the blocks one behind the other. -/
theorem readBlocks_found (h : f.driver.Answers) (t : ℕ → UInt8) (count o : ℕ) :
    f.readBlocks t count (o * f.blockSize) =
      ⟨slice (fun i => f.blockByte ((f.found o).getD (i / f.blockSize) 0) (i % f.blockSize)) 0
        (min count ((f.found o).length * f.blockSize)),
        count - min count ((f.found o).length * f.blockSize), true⟩ := by
  rw [readBlocks_walk, walk_found h, List.map_congr_left fun p _ => Ext2Volume.readBlock_eq h t p,
    copyBlocks_map_some f.blockSize_pos _ _ 0]
  congr 1
  refine slice_congr fun i _ => ?_
  exact Ext2Volume.buffer_block t _ (Nat.mod_lt _ f.blockSize_pos)

theorem bmod_eq_self_iff (hn : n < word32) : Int.bmod (n : ℤ) word32 = n ↔ n < 2147483648 := by
  rw [word32] at *
  rw [Int.bmod]
  split_ifs <;> omega

/-- A read from a block boundary gives `n` bytes of the file exactly if `n` is an `int`, so many
bytes are left after the comparisons and in the blocks that are found, and these hold them. -/
theorem read_eq_iff (h : f.driver.Answers) (t : ℕ → UInt8) (count o : ℕ) (hn : n < word32) :
    f.read t count (o * f.blockSize) = ((n : ℤ), slice f.fileByte (o * f.blockSize) n) ↔
      n < 2147483648 ∧
      min (f.clipped count (o * f.blockSize)) ((f.found o).length * f.blockSize) = n ∧
      f.FindsBytes o n := by
  have hpos := f.blockSize_pos
  have hread : f.read t count (o * f.blockSize) =
      (Int.bmod (min (f.clipped count (o * f.blockSize)) ((f.found o).length * f.blockSize) : ℕ)
        word32,
      slice (fun i => f.blockByte ((f.found o).getD (i / f.blockSize) 0) (i % f.blockSize)) 0
        (min (f.clipped count (o * f.blockSize)) ((f.found o).length * f.blockSize))) := by
    rw [read, clipped]
    split_ifs
    · simp
    · rw [readBlocks_found h, copyResult, if_pos rfl, slice_length]
  rw [hread]
  generalize hm : min (f.clipped count (o * f.blockSize)) ((f.found o).length * f.blockSize) = m
  have hle : m ≤ (f.found o).length * f.blockSize := hm ▸ Nat.min_le_right _ _
  -- the blocks, byte by byte
  have hbytes : FindsBytes f o n ∧ m = n ↔ m = n ∧
      slice (fun i => f.blockByte ((f.found o).getD (i / f.blockSize) 0) (i % f.blockSize)) 0 m =
        slice f.fileByte (o * f.blockSize) n := by
    rw [and_comm]
    refine and_congr_right ?_
    rintro rfl
    constructor
    · intro hfinds
      refine slice_congr fun i hi => ?_
      have hdiv := Nat.div_add_mod i f.blockSize
      rw [Nat.mul_comm] at hdiv
      obtain ⟨p, hget, hbyte⟩ := hfinds (i / f.blockSize) (i % f.blockSize) (Nat.mod_lt _ hpos)
        (by omega)
      rw [Nat.zero_add, List.getD_eq_getElem?_getD, hget, Option.getD_some, hbyte, Nat.add_mul]
      congr 1
      omega
    · intro hslice k j hj hlt
      have hindex : k < (f.found o).length := by
        by_contra hge
        have := Nat.mul_le_mul_right f.blockSize (Nat.le_of_not_lt hge)
        omega
      refine ⟨_, List.getElem?_eq_getElem hindex, ?_⟩
      have hget := congrArg (·[k * f.blockSize + j]?) hslice
      simp only [slice_getElem? _ hlt, Nat.zero_add] at hget
      rw [Nat.mul_comm k, Nat.mul_add_div hpos, Nat.div_eq_of_lt hj, Nat.mul_add_mod,
        Nat.mod_eq_of_lt hj, Nat.add_zero, List.getD_eq_getElem?_getD, List.getElem?_eq_getElem hindex,
        Option.getD_some] at hget
      rw [Option.some.inj hget, Nat.add_mul]
      congr 1
      ring
  rw [Prod.mk.injEq]
  constructor
  · rintro ⟨hret, hslice⟩
    have hlen := congrArg List.length hslice
    rw [slice_length, slice_length] at hlen
    subst hlen
    exact ⟨(bmod_eq_self_iff hn).mp hret, rfl, (hbytes.mpr ⟨rfl, hslice⟩).1⟩
  · rintro ⟨hsmall, rfl, hfinds⟩
    exact ⟨(bmod_eq_self_iff hn).mpr hsmall, (hbytes.mp ⟨hfinds, rfl⟩).2⟩

end Ext2File

end DosKernel
