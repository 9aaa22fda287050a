import DosKernel.Fs.Ext2Contents
import DosKernel.Fs.Sequential

/-! Reads of ext2 files from a block boundary. From the start of a file without holes every
block is found in its place, down to the third level. A read that starts behind the direct
blocks enters the blocks of pointers at a quarter of its position, and a pointer that is 0
lets the loops go on to the next level: in these cases the bytes come from other blocks. -/

namespace DosKernel

open Lib

/-! ### Blocks in their places -/

namespace Ext2Volume
variable {f : Ext2Volume} {o k base level p : ℕ} {ps : List ℕ}

theorem foundBelow_isPrefix (f : Ext2Volume) (o level : ℕ) (ps : List ℕ) (p : ℕ) :
    ps <+: f.foundBelow o level ps p := by
  induction level generalizing ps p with
  | zero =>
    rw [foundBelow]
    exact List.prefix_append _ _
  | succ level ih =>
    rw [foundBelow]
    generalize (f.children p).takeWhile (· ≠ 0) = qs
    induction qs generalizing ps with
    | nil => exact List.prefix_refl ps
    | cons q qs ihqs => exact (ih ps q).trans (ihqs _)

/-- Position `i` below a pointer leads to data, through blocks whose pointers are read right. -/
def Leads (f : Ext2Volume) (level p i : ℕ) : Prop :=
  PointerTree.lookup (f.blockSize / 4) f.entry level p i ≠ 0 ∧
    PointerTree.Faithful (f.blockSize / 4) f.children f.entry level p i

theorem Leads.pointer_ne {i : ℕ} (h : f.Leads level p i) : p ≠ 0 := by
  rintro rfl
  exact h.1 (PointerTree.lookup_zero _ _ _ _)

/-- A block of pointers that is entered at its own position. -/
theorem entered_getElem? (hlen : ps.length = 12 - o) (hstart : (o - ps.length) / 4 = o - 12)
    (hok : o ≤ k) (hk : 12 ≤ k) (hk' : k < 12 + f.blockSize / 4)
    (h : ∀ i ≤ k - 12, f.Leads 0 p i) :
    (f.foundBelow o 0 ps p)[k - o]? =
      some (PointerTree.lookup (f.blockSize / 4) f.entry 0 p (k - 12)) := by
  have hchildren : f.children p = (List.range (f.blockSize / 4)).map (f.entry p) :=
    (h 0 (Nat.zero_le _)).2 p (by simp [PointerTree.path])
  have hget : ∀ i, o - 12 + i ≤ k - 12 → ((f.children p).drop (o - 12))[i]? =
      some (PointerTree.lookup (f.blockSize / 4) f.entry 0 p (o - 12 + i)) := by
    intro i hi
    rw [hchildren, List.getElem?_drop, List.getElem?_map, List.getElem?_range (by omega),
      PointerTree.lookup, if_neg (h _ hi).pointer_ne]
    rfl
  rw [foundBelow, List.getElem?_append_right (by omega), hstart, hlen,
    PointerTree.takeWhile_getElem? fun i hi => ⟨_, hget i (by omega), (h _ (by omega)).1⟩,
    hget _ (by omega)]
  congr 2
  omega

theorem perBlock_ge (f : Ext2Volume) : 256 ≤ f.blockSize / 4 := by
  have := Nat.one_le_two_pow (n := f.log2BlockSize)
  rw [blockSize]
  omega

theorem entered_length (hlen : ps.length = 12 - o) (hstart : (o - ps.length) / 4 = o - 12)
    (h : ∀ i < f.blockSize / 4, f.Leads 0 p i) :
    (f.foundBelow o 0 ps p).length = 12 + f.blockSize / 4 - o := by
  have hn := f.perBlock_ge
  have hlast := entered_getElem? (k := 12 + f.blockSize / 4 - 1) hlen hstart (by omega) (by omega)
    (by omega) fun i hi => h i (by omega)
  have hlt := (List.getElem?_eq_some_iff.mp hlast).1
  have htop : (f.foundBelow o 0 ps p).length ≤ 12 - o + (f.blockSize / 4 - (o - 12)) := by
    rw [foundBelow, List.length_append, hlen, ← hlen, hstart, ← children_length f p,
      ← List.length_drop]
    exact Nat.add_le_add_left (List.takeWhile_prefix _).length_le _
  omega

/-- Below a pointer of a higher level, the blocks from `base` on. -/
theorem below_getElem? (hlen : ps.length = base - o) (hroom : 2 * o < base + 4) (hok : o ≤ base)
    (hk : base ≤ k) (hk' : k < base + (f.blockSize / 4) ^ (level + 1))
    (h : ∀ i ≤ k - base, f.Leads level p i) :
    (f.foundBelow o level ps p)[k - o]? =
      some (PointerTree.lookup (f.blockSize / 4) f.entry level p (k - base)) := by
  rw [foundBelow_leaves (by omega), List.getElem?_append_right (by omega), hlen,
    show k - o - (base - o) = k - base by omega]
  exact PointerTree.leaves_getElem? (fun q => (children_length f q).le) (by omega) h

theorem below_length (hlen : ps.length = base - o) (hroom : 2 * o < base + 4) (hok : o ≤ base)
    (h : ∀ i < (f.blockSize / 4) ^ (level + 1), f.Leads level p i) :
    (f.foundBelow o level ps p).length = base + (f.blockSize / 4) ^ (level + 1) - o := by
  have hn := f.perBlock_ge
  rw [foundBelow_leaves (by omega), List.length_append, hlen,
    PointerTree.leaves_length (by omega) (fun q => (children_length f q).le) h]
  omega

end Ext2Volume

/-! ### The blocks of a file without holes -/

namespace Ext2File
variable {f : Ext2File} {o k i m : ℕ}

/-- The first block of the file that is found below the pointer of a level. -/
def base (f : Ext2File) : (level : ℕ) → ℕ
  | 0 => 12
  | level + 1 => base f level + f.perBlock ^ (level + 1)

theorem base_mono (f : Ext2File) : Monotone f.base :=
  monotone_nat_of_le_succ fun _ => Nat.le_add_right _ _

theorem base_one (f : Ext2File) : f.base 1 = 12 + f.perBlock := by
  rw [base, base, Nat.zero_add, Nat.pow_one]

theorem base_two (f : Ext2File) : f.base 2 = 12 + f.perBlock + f.perBlock ^ 2 := by
  rw [base, base_one]

theorem base_three (f : Ext2File) :
    f.base 3 = 12 + f.perBlock + f.perBlock ^ 2 + f.perBlock ^ 3 := by
  rw [base, base_two]

def indirect (f : Ext2File) (level : ℕ) : ℕ :=
  [f.singlyIndirect, f.doublyIndirect, f.triplyIndirect].getD level 0

theorem blockNumber_indirect {level : ℕ} (hlevel : level < 3) (hi : i < f.perBlock ^ (level + 1)) :
    f.blockNumber (f.base level + i) =
      PointerTree.lookup f.perBlock f.entry level (f.indirect level) i := by
  obtain rfl | rfl | rfl : level = 0 ∨ level = 1 ∨ level = 2 := by omega
  · rw [Nat.zero_add, Nat.pow_one] at hi
    rw [base, blockNumber, if_neg (by omega), if_pos (by omega), Nat.add_sub_cancel_left]
    rfl
  · change i < f.perBlock ^ 2 at hi
    rw [base_one, blockNumber, if_neg (by omega), if_neg (by omega), if_pos (by omega),
      Nat.sub_sub, Nat.add_sub_cancel_left]
    rfl
  · change i < f.perBlock ^ 3 at hi
    rw [base_two, blockNumber, if_neg (by omega), if_neg (by omega), if_neg (by omega),
      if_pos (by omega), Nat.sub_sub, Nat.sub_sub, ← Nat.add_assoc, Nat.add_sub_cancel_left]
    rfl

theorem blockPath_indirect {level : ℕ} (hlevel : level < 3) (hi : i < f.perBlock ^ (level + 1)) :
    f.blockPath (f.base level + i) =
      PointerTree.path f.perBlock f.entry level (f.indirect level) i := by
  obtain rfl | rfl | rfl : level = 0 ∨ level = 1 ∨ level = 2 := by omega
  · rw [Nat.zero_add, Nat.pow_one] at hi
    rw [base, blockPath, if_neg (by omega), if_pos (by omega), Nat.add_sub_cancel_left]
    rfl
  · change i < f.perBlock ^ 2 at hi
    rw [base_one, blockPath, if_neg (by omega), if_neg (by omega), if_pos (by omega),
      Nat.sub_sub, Nat.add_sub_cancel_left]
    rfl
  · rw [base_two, blockPath, if_neg (by omega), if_neg (by omega), if_neg (by omega),
      Nat.sub_sub, Nat.sub_sub, ← Nat.add_assoc, Nat.add_sub_cancel_left]
    rfl

/-- A block of a file without holes is reached through its pointers. -/
theorem HoleFree.leads (hfree : f.HoleFree m) (hfit : f.BlocksFit m) {level : ℕ} (hlevel : level < 3)
    (hi : i < f.perBlock ^ (level + 1)) (hk : (f.base level + i) * f.blockSize < m) :
    f.Leads level (f.indirect level) i := by
  have hne := hfree _ hk
  have hpath := (hfit _ hk).2
  rw [blockNumber_indirect hlevel hi] at hne
  rw [blockPath_indirect hlevel hi] at hpath
  exact ⟨hne, fun q hq => (hpath q hq).children_eq⟩

/-- No block of a file lies behind the third level. -/
theorem lt_base (hk : k * f.blockSize < word32) : k < f.base 3 := by
  have hn : 256 ≤ f.perBlock := f.perBlock_ge
  have hbs : 1024 ≤ f.blockSize := by
    rw [perBlock] at hn
    omega
  have hcube : 256 ^ 3 ≤ f.perBlock ^ 3 := Nat.pow_le_pow_left hn 3
  have hmul : k * 1024 ≤ k * f.blockSize := Nat.mul_le_mul_left k hbs
  rw [base_three]
  rw [word32] at hk
  omega

/-- The pointers found after a level; `found` is what is found after all of them. -/
def foundUpTo (f : Ext2File) (o : ℕ) : (level : ℕ) → List ℕ
  | 0 => (f.directBlockPointers.drop o).takeWhile (· ≠ 0)
  | level + 1 => if f.indirect level = 0 then foundUpTo f o level
    else f.foundBelow o level (foundUpTo f o level) (f.indirect level)

theorem found_eq (f : Ext2File) (o : ℕ) : f.found o = f.foundUpTo o 3 := rfl

theorem foundUpTo_isPrefix (f : Ext2File) (o level : ℕ) :
    f.foundUpTo o level <+: f.foundUpTo o (level + 1) := by
  rw [foundUpTo]
  split_ifs
  · exact List.prefix_refl _
  · exact Ext2Volume.foundBelow_isPrefix _ _ _ _ _

theorem foundUpTo_found (f : Ext2File) (o : ℕ) {level m : ℕ} (h : level ≤ m) :
    f.foundUpTo o level <+: f.foundUpTo o m := by
  induction h with
  | refl => exact List.prefix_refl _
  | step _ ih => exact ih.trans (foundUpTo_isPrefix f o _)

/-- The positions at which a read may start so that every block of pointers is entered at its
own position. -/
def StartsRight (o : ℕ) : Prop := o < 8 ∨ o = 15 ∨ o = 16

theorem startsRight_iff : StartsRight o ↔ (o - (12 - o)) / 4 = o - 12 := by
  rw [StartsRight]
  omega

/-- The direct blocks are found from every position. -/
theorem direct_getElem? (hfree : f.HoleFree m) (hok : o ≤ k) (hk : k < 12)
    (hsize : k * f.blockSize < m) : (f.foundUpTo o 0)[k - o]? = some (f.blockNumber k) := by
  have hget : ∀ i ≤ k - o, (f.directBlockPointers.drop o)[i]? = some (f.blockNumber (o + i)) :=
    fun i hi => by rw [List.getElem?_drop, blockNumber_direct (by omega)]
  have hne : ∀ i ≤ k - o, f.blockNumber (o + i) ≠ 0 := fun i hi => hfree _
    ((Nat.mul_le_mul_right _ (by omega)).trans_lt hsize)
  rw [foundUpTo, PointerTree.takeWhile_getElem? fun i hi => ⟨_, hget i hi, hne i hi⟩,
    hget _ le_rfl, Nat.add_sub_cancel' hok]

theorem foundUpTo_length (hfree : f.HoleFree m) (hfit : f.BlocksFit m) (hstart : StartsRight o)
    (level : ℕ) (hlevel : level ≤ 3) (h : (f.base level - 1) * f.blockSize < m) :
    (f.foundUpTo o level).length = f.base level - o := by
  have hn : 256 ≤ f.perBlock := f.perBlock_ge
  have hright := startsRight_iff.mp hstart
  induction level with
  | zero =>
    have htop : (f.foundUpTo o 0).length ≤ 12 - o := by
      rw [foundUpTo, ← f.direct_length, ← List.length_drop]
      exact (List.takeWhile_prefix _).length_le
    rw [base] at h ⊢
    rcases Nat.lt_or_ge o 12 with ho | ho
    · have hlt := (List.getElem?_eq_some_iff.mp
        (direct_getElem? (o := o) (k := 11) hfree (by omega) (by omega) h)).1
      omega
    · omega
  | succ level ih =>
    have hpos : 0 < f.perBlock ^ (level + 1) := Nat.pow_pos (by omega)
    have hbelow : ∀ i < f.perBlock ^ (level + 1), f.Leads level (f.indirect level) i := by
      intro i hi
      refine HoleFree.leads hfree hfit (by omega) hi
        ((Nat.mul_le_mul_right f.blockSize ?_).trans_lt h)
      rw [base]
      omega
    have hprev := ih (by omega) ((Nat.mul_le_mul_right f.blockSize
      (by rw [base]; omega)).trans_lt h)
    rw [foundUpTo, if_neg (hbelow 0 hpos).pointer_ne]
    cases level with
    | zero =>
      rw [base_one]
      exact Ext2Volume.entered_length hprev (by rw [hprev, base]; exact hright)
        fun i hi => hbelow i (by rwa [Nat.zero_add, Nat.pow_one])
    | succ level =>
      rw [base]
      have hbase : f.base 1 ≤ f.base (level + 1) := f.base_mono (by omega)
      rw [base_one] at hbase
      rw [StartsRight] at hstart
      exact Ext2Volume.below_length hprev (by omega) (by omega) hbelow

theorem found_getElem? (hfree : f.HoleFree m) (hfit : f.BlocksFit m) (hstart : StartsRight o)
    (hm : m ≤ word32) (hok : o ≤ k) (hk : k * f.blockSize < m) :
    (f.found o)[k - o]? = some (f.blockNumber k) := by
  have hright := startsRight_iff.mp hstart
  have hlt : ∀ i ≤ k, i * f.blockSize < m := fun i hi =>
    (Nat.mul_le_mul_right _ hi).trans_lt hk
  -- the level whose pointer leads to the block
  have hlevel : ∃ level ≤ 3, (f.foundUpTo o level)[k - o]? = some (f.blockNumber k) := by
    rcases Nat.lt_or_ge k 12 with hdirect | hge
    · exact ⟨0, by omega, direct_getElem? hfree hok hdirect hk⟩
    · obtain ⟨level, hlevel, hlo, hhi⟩ : ∃ level < 3, f.base level ≤ k ∧ k < f.base (level + 1) := by
        have htop := lt_base (hk.trans_le hm)
        rcases Nat.lt_or_ge k (f.base 1) with h1 | h1
        · exact ⟨0, by omega, hge, h1⟩
        rcases Nat.lt_or_ge k (f.base 2) with h2 | h2
        · exact ⟨1, by omega, h1, h2⟩
        · exact ⟨2, by omega, h2, htop⟩
      have hprev := foundUpTo_length hfree hfit hstart level (by omega)
        (hlt _ (by omega))
      have hdigits : k - f.base level < f.perBlock ^ (level + 1) := by
        rw [base] at hhi
        omega
      have hbelow : ∀ i ≤ k - f.base level, f.Leads level (f.indirect level) i := fun i hi =>
        HoleFree.leads hfree hfit hlevel (by omega) (hlt _ (by omega))
      refine ⟨level + 1, by omega, ?_⟩
      rw [foundUpTo, if_neg (hbelow 0 (Nat.zero_le _)).pointer_ne,
        ← Nat.add_sub_cancel' hlo, blockNumber_indirect hlevel hdigits, Nat.add_sub_cancel' hlo]
      cases level with
      | zero =>
        rw [base_one] at hhi
        exact Ext2Volume.entered_getElem? hprev (by rw [hprev]; exact hright) hok hge hhi hbelow
      | succ level =>
        have hbase : f.base 1 ≤ f.base (level + 1) := f.base_mono (by omega)
        have hn : 256 ≤ f.perBlock := f.perBlock_ge
        rw [base_one] at hbase
        rw [StartsRight] at hstart
        exact Ext2Volume.below_getElem? hprev (by omega) (by omega) hlo
          (by rw [base] at hhi; exact hhi) hbelow
  obtain ⟨level, hle, hget⟩ := hlevel
  obtain ⟨hindex, hval⟩ := List.getElem?_eq_some_iff.mp hget
  rw [found_eq, List.prefix_iff_getElem?.mp (foundUpTo_found f o hle) _ hindex, hval]

/-! ### Whole files, continued reads, sparse files -/

/-- The blocks that are found for a read that starts right, or ends in the direct blocks. -/
theorem findsBytes_of (hfree : f.HoleFree (o * f.blockSize + i))
    (hfit : f.BlocksFit (o * f.blockSize + i)) (hword : o * f.blockSize + i ≤ word32)
    (hplace : StartsRight o ∨ o * f.blockSize + i ≤ 12 * f.blockSize) :
    f.FindsBytes o i ∧ i ≤ (f.found o).length * f.blockSize := by
  have hpos := f.blockSize_pos
  have hget : ∀ k j, k * f.blockSize + j < i →
      (f.found o)[k]? = some (f.blockNumber (o + k)) := by
    intro k j hlt
    have hk : (o + k) * f.blockSize < o * f.blockSize + i := by
      rw [Nat.add_mul]
      omega
    rcases hplace with hstart | hdirect
    · rw [← found_getElem? hfree hfit hstart hword (Nat.le_add_right o k) hk,
        Nat.add_sub_cancel_left]
    · have hlt12 : o + k < 12 := Nat.lt_of_mul_lt_mul_right (hk.trans_le hdirect)
      have hdir := direct_getElem? hfree (Nat.le_add_right o k) hlt12 hk
      rw [Nat.add_sub_cancel_left] at hdir
      obtain ⟨hindex, hval⟩ := List.getElem?_eq_some_iff.mp hdir
      rw [found_eq, List.prefix_iff_getElem?.mp (foundUpTo_found f o (Nat.zero_le 3)) _ hindex, hval]
  constructor
  · intro k j hj hlt
    have hk : (o + k) * f.blockSize < o * f.blockSize + i := by
      rw [Nat.add_mul]
      omega
    have hdiv : ((o + k) * f.blockSize + j) / f.blockSize = o + k := by
      rw [Nat.mul_comm, Nat.mul_add_div hpos, Nat.div_eq_of_lt hj, Nat.add_zero]
    have hmod : ((o + k) * f.blockSize + j) % f.blockSize = j := by
      rw [Nat.mul_comm, Nat.mul_add_mod, Nat.mod_eq_of_lt hj]
    refine ⟨_, hget k j hlt, ?_⟩
    rw [fileByte, hdiv, hmod, if_neg (hfree _ hk), (hfit _ hk).1.blockByte_eq hj]
  · rcases Nat.eq_zero_or_pos i with rfl | hi
    · exact Nat.zero_le _
    have hlast := Nat.div_add_mod (i - 1) f.blockSize
    rw [Nat.mul_comm] at hlast
    have hmod := Nat.mod_lt (i - 1) hpos
    have hlt := (List.getElem?_eq_some_iff.mp (hget _ _ (show (i - 1) / f.blockSize * f.blockSize +
      (i - 1) % f.blockSize < i by omega))).1
    have hmul := Nat.mul_le_mul_right f.blockSize (Nat.succ_le_of_lt hlt)
    rw [Nat.succ_mul] at hmul
    omega

theorem clipped_eq {count offset : ℕ} (h : offset + count < word32) :
    f.clipped count offset = min count (f.size - offset) := by
  rw [clipped]
  split_ifs with hsize
  · omega
  · exact clip_eq (Nat.lt_of_not_le hsize) h

/-- A file of less than 2 GiB without holes, read from its start. -/
theorem whole_file_read (f : Ext2File) (h : f.driver.Answers) (hsize : f.size < 2147483648)
    (hfree : f.HoleFree f.size) (hfit : f.BlocksFit f.size) (tail : ℕ → UInt8) {count : ℕ}
    (hcount : count < word32) :
    f.read tail count 0 = ((min count f.size : ℤ), slice f.fileByte 0 (min count f.size)) := by
  have hle : 0 * f.blockSize + min count f.size ≤ f.size := by
    rw [Nat.zero_mul, Nat.zero_add]
    exact Nat.min_le_right _ _
  have hlt : ∀ k, k * f.blockSize < 0 * f.blockSize + min count f.size →
      k * f.blockSize < f.size := fun k hk => hk.trans_le hle
  obtain ⟨hfinds, henough⟩ := findsBytes_of (f := f) (o := 0) (i := min count f.size)
    (fun k hk => hfree k (hlt k hk)) (fun k hk => hfit k (hlt k hk))
    (hle.trans f.size_lt.le) (.inl (.inl (by decide)))
  have hread := (read_eq_iff h tail count 0
    ((Nat.min_le_right _ _).trans_lt f.size_lt)).mpr ⟨by omega, ?_, hfinds⟩
  · rw [Nat.zero_mul] at hread
    rw [hread, Nat.cast_min]
  · rw [Nat.zero_mul, clipped_eq (by omega), Nat.sub_zero, Nat.min_eq_left henough]

end Ext2File

/-- A drive whose sector 40 holds the pointers 100, 101, …, and each other sector its number. -/
def pointerDrive : IoDriver where
  sectorSize := 1024
  sector := fun lba j =>
    if lba = 40 then if j % 4 = 0 then (100 + j / 4).toUInt8 else 0 else lba.toUInt8
  fails := fun _ _ => false
  sectorSize_pos := sector1024_pos

/-- A file of 17 blocks, five of them below the singly indirect pointer. -/
def longExample : Ext2File where
  driver := pointerDrive
  startLba := 0
  log2BlockSize := 0
  size := 17408
  directBlockPointers := [10, 11, 12, 13, 14, 15, 16, 17, 18, 19, 20, 21]
  singlyIndirect := 40
  doublyIndirect := 0
  triplyIndirect := 0
  log2_le := smallestBlock_le
  sector_dvd := ⟨1, rfl⟩
  size_lt := by decide
  direct_length := rfl

/-- A file of three blocks; the second one is missing. -/
def sparseExample : Ext2File := { longExample with
  size := 3072
  directBlockPointers := [20, 0, 31, 0, 0, 0, 0, 0, 0, 0, 0, 0]
  singlyIndirect := 0
  size_lt := by decide
  direct_length := rfl }

theorem longExample_block {k : ℕ} (h : k * longExample.blockSize < 17408) : k < 17 := by
  have : k * 1024 < 17408 := h
  omega

theorem longExample_holeFree : longExample.HoleFree 17408 := by
  have hne : ∀ k < 17, longExample.blockNumber k ≠ 0 := by decide
  exact fun k hk => hne k (longExample_block hk)

theorem longExample_blocksFit : longExample.BlocksFit 17408 := by
  have hfits : ∀ k < 17, longExample.Fits (longExample.blockNumber k) ∧
      ∀ p ∈ longExample.blockPath k, longExample.Fits p := by decide
  exact fun k hk => hfits k (longExample_block hk)

theorem longExample_answers : longExample.driver.Answers := fun _ => ⟨0, by decide, rfl⟩

namespace Ext2File

theorem whole_file_read_of_long : longExample.read (fun _ => 0xff) 20000 0 =
    ((min (20000 : ℕ) longExample.size : ℤ),
      slice longExample.fileByte 0 (min 20000 longExample.size)) :=
  whole_file_read longExample longExample_answers (by decide) longExample_holeFree
    longExample_blocksFit _ (by decide)

variable {f : Ext2File} {o k i m : ℕ}

/-- The size of a file, with the upper half that the inode has too. -/
def fileSize (f : Ext2File) (sizeHigh : ℕ) : ℕ := sizeHigh * word32 + f.size

/-- `ext2_read` gives the bytes of the file from an offset on, as many as there are. -/
def ReadsRight (f : Ext2File) (t : ℕ → UInt8) (sizeHigh count offset : ℕ) : Prop :=
  let n := min count (f.fileSize sizeHigh - offset)
  f.read t count offset = ((n : ℤ), slice f.fileByte offset n)

/-- The clip is to the size of the file if the sum does not wrap and no upper half is left out. -/
theorem clipped_eq_fileSize {sizeHigh count offset : ℕ} (hwrap : offset + count < word32)
    (hsize : sizeHigh = 0 ∨ offset + count ≤ f.size) :
    f.clipped count offset = min count (f.fileSize sizeHigh - offset) := by
  rw [clipped_eq hwrap, fileSize]
  rcases hsize with rfl | hsize
  · rw [Nat.zero_mul, Nat.zero_add]
  · omega

/-- A read at a block boundary is right exactly if its result is an `int`, the comparisons with
the size and the blocks found leave as many bytes as the file has, and these blocks hold them.
So it is if the sum does not wrap, no block is missing, and either it starts at one of the blocks
up to 7, 15 or 16 or it ends in the direct blocks. -/
theorem continued_read_iff (f : Ext2File) (h : f.driver.Answers) (t : ℕ → UInt8)
    (sizeHigh o : ℕ) {count : ℕ} (hcount : count < word32) :
    let n := min count (f.fileSize sizeHigh - o * f.blockSize)
    (f.ReadsRight t sizeHigh count (o * f.blockSize) ↔ n < 2147483648 ∧
      min (f.clipped count (o * f.blockSize)) ((f.found o).length * f.blockSize) = n ∧
      f.FindsBytes o n) ∧
    (n < 2147483648 → o * f.blockSize + count < word32 →
      (sizeHigh = 0 ∨ o * f.blockSize + count ≤ f.size) →
      f.HoleFree (o * f.blockSize + n) → f.BlocksFit (o * f.blockSize + n) →
      (StartsRight o ∨ o * f.blockSize + n ≤ 12 * f.blockSize) →
      f.ReadsRight t sizeHigh count (o * f.blockSize)) := by
  intro n
  have hle : n ≤ count := Nat.min_le_left _ _
  have hiff : f.ReadsRight t sizeHigh count (o * f.blockSize) ↔ _ :=
    read_eq_iff h t count o (hle.trans_lt hcount)
  refine ⟨hiff, fun hint hwrap hsize hfree hfit hplace => hiff.mpr ?_⟩
  obtain ⟨hfinds, henough⟩ := findsBytes_of hfree hfit (by omega) hplace
  exact ⟨hint, by rw [clipped_eq_fileSize hwrap hsize, Nat.min_eq_left henough], hfinds⟩

/-- A read of the last two blocks. -/
theorem continued_read_of_long :
    longExample.ReadsRight (fun _ => 0xff) 0 3000 (15 * longExample.blockSize) :=
  (continued_read_iff longExample longExample_answers _ 0 15 (by decide)).2 (by decide) (by decide)
    (.inl rfl) longExample_holeFree longExample_blocksFit (.inl (.inr (.inl rfl)))

/-- The first block behind the direct ones: the read takes the fourth one. -/
theorem continued_read_wrong :
    ¬ ∀ (f : Ext2File) (t : ℕ → UInt8) (sizeHigh o count : ℕ), f.driver.Answers →
      f.HoleFree (f.fileSize sizeHigh) → 12 * f.blockSize < f.fileSize sizeHigh →
      o * f.blockSize < f.fileSize sizeHigh → o * f.blockSize < word32 → count < word32 →
      f.ReadsRight t sizeHigh count (o * f.blockSize) := by
  intro h
  have hread := h longExample (fun _ => 0) 0 12 1 longExample_answers longExample_holeFree
    (by decide) (by decide) (by decide) (by decide)
  have hstored : (longExample.read (fun _ => 0) 1 (12 * longExample.blockSize)).2 = [103] := by
    decide
  have hfile : slice longExample.fileByte (12 * longExample.blockSize) 1 = [100] := by
    decide
  have hn : min 1 (longExample.fileSize 0 - 12 * longExample.blockSize) = 1 := by decide
  rw [ReadsRight, hn, hfile] at hread
  rw [hread] at hstored
  exact absurd hstored (by decide)

/-- The data pointers before the first 0 of each block of pointers, and of the inode. -/
def present (f : Ext2File) : List ℕ :=
  let below := fun level => if f.indirect level = 0 then []
    else PointerTree.leaves f.children level (f.indirect level)
  f.directBlockPointers.takeWhile (· ≠ 0) ++ below 0 ++ below 1 ++ below 2

theorem found_zero (f : Ext2File) : f.found 0 = f.present := by
  have hstep : ∀ level, f.foundUpTo 0 (level + 1) = f.foundUpTo 0 level ++
      if f.indirect level = 0 then []
      else PointerTree.leaves f.children level (f.indirect level) := by
    intro level
    rw [foundUpTo]
    split_ifs
    · rw [List.append_nil]
    · exact Ext2Volume.foundBelow_leaves (by omega) level _
  rw [found_eq, hstep, hstep, hstep]
  rfl

/-- A read from the start of a file is right exactly if the present blocks, one behind the
other, hold the bytes of the file. So it is if no block is missing up to its end. -/
theorem sparse_read_iff (f : Ext2File) (h : f.driver.Answers) (t : ℕ → UInt8) (sizeHigh : ℕ)
    {count : ℕ} (hcount : count < word32) :
    let n := min count (f.fileSize sizeHigh)
    (f.ReadsRight t sizeHigh count 0 ↔ n < 2147483648 ∧
      min (min count f.size) (f.present.length * f.blockSize) = n ∧
      ∀ k j, j < f.blockSize → k * f.blockSize + j < n → ∃ p, f.present[k]? = some p ∧
        f.blockByte p j = f.fileByte (k * f.blockSize + j)) ∧
    (n < 2147483648 → n ≤ f.size → f.HoleFree n → f.BlocksFit n →
      f.ReadsRight t sizeHigh count 0) := by
  intro n
  have hle : n ≤ count := Nat.min_le_left _ _
  have hiff := read_eq_iff h t count 0 (hle.trans_lt hcount)
  rw [Nat.zero_mul, clipped_eq (by omega), Nat.sub_zero] at hiff
  rw [FindsBytes, found_zero] at hiff
  simp only [Nat.zero_add] at hiff
  refine ⟨hiff, fun hint hsize hfree hfit => hiff.mpr ?_⟩
  have hzero : 0 * f.blockSize + n = n := by rw [Nat.zero_mul, Nat.zero_add]
  obtain ⟨hfinds, henough⟩ := findsBytes_of (f := f) (o := 0) (i := n) (by rwa [hzero])
    (by rwa [hzero]) (by omega) (.inl (.inl (by decide)))
  rw [FindsBytes, found_zero] at hfinds
  simp only [Nat.zero_add] at hfinds
  rw [found_zero] at henough
  have hmin : min count f.size = n := by
    have hfile : f.size ≤ f.fileSize sizeHigh := Nat.le_add_left _ _
    omega
  exact ⟨hint, by rw [hmin, Nat.min_eq_left henough], hfinds⟩

theorem sparse_read_of_long : longExample.ReadsRight (fun _ => 0xff) 0 20000 0 :=
  (sparse_read_iff longExample longExample_answers _ 0 (by decide)).2 (by decide) (by decide)
    longExample_holeFree longExample_blocksFit

/-- A hole in the second of three blocks: the read ends before it. -/
theorem sparse_read_wrong :
    ¬ ∀ (f : Ext2File) (t : ℕ → UInt8) (sizeHigh count : ℕ), f.driver.Answers →
      f.BlocksFit (f.fileSize sizeHigh) → ¬ f.HoleFree (f.fileSize sizeHigh) → count < word32 →
      f.ReadsRight t sizeHigh count 0 := by
  intro h
  have hfit : sparseExample.BlocksFit (sparseExample.fileSize 0) := by
    have hfits : ∀ k < 3, sparseExample.Fits (sparseExample.blockNumber k) ∧
        ∀ p ∈ sparseExample.blockPath k, sparseExample.Fits p := by decide
    intro k hk
    have hlt : k * 1024 < 3072 := hk
    exact hfits k (by omega)
  have hhole : ¬ sparseExample.HoleFree (sparseExample.fileSize 0) := fun hfree =>
    hfree 1 (by decide) (by decide)
  have hread := h sparseExample (fun _ => 0) 0 3072 longExample_answers hfit hhole (by decide)
  have hret : (sparseExample.read (fun _ => 0) 3072 0).1 = 1024 := by decide +kernel
  have hn : min 3072 (sparseExample.fileSize 0 - 0) = 3072 := by decide
  rw [ReadsRight, hn] at hread
  rw [hread] at hret
  exact absurd hret (by decide)

end Ext2File

end DosKernel
