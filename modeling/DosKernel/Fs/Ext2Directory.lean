import DosKernel.Fs.Ext2Inodes
import DosKernel.Fs.Paths

/-! The directories of an ext2 volume. `ext2_readdir` walks the records from the start of the
directory to the one with the wanted number, two blocks in the buffer at a time. A record that is
not in use ends the walk, wherever it stands. -/

namespace DosKernel

open Lib

/-- `ext2_directory_entry`, without the type; the name has as many bytes as its length says. -/
structure DirRecord where
  inode : ℕ
  size : ℕ
  nameLength : ℕ
  name : List UInt8
  deriving DecidableEq

def recordAt (b : ℕ → UInt8) (o : ℕ) : DirRecord where
  inode := Ext2Volume.word b o
  size := (b (o + 4)).toNat + 256 * (b (o + 5)).toNat
  nameLength := (b (o + 6)).toNat
  name := slice b (o + 8) (b (o + 6)).toNat

/-- The inode of a directory, on its volume. -/
structure Ext2Directory extends Ext2File, Ext2Inodes where
  typePermission : ℕ

namespace Ext2Directory
variable (d : Ext2Directory) (tail : ℕ → UInt8) (bgd : ℕ)

/-- The string that `strncpy` makes of a name, with the inode number and the inode. -/
def entryResult (entry : DirRecord) : Except ℤ (List UInt8 × ℕ × List UInt8) :=
  let r := d.readInode tail bgd entry.inode
  if r.1 = 0 then .ok (entry.name.takeWhile (· ≠ 0), entry.inode, r.2) else .error (-eio)

/-- The loop over the records of a block: it goes on with the next block and a count of records,
or it returns. -/
def readdirBlock (b : ℕ → UInt8) (index : ℕ) :
    (fuel offset j : ℕ) → Option (ℕ ⊕ Except ℤ (List UInt8 × ℕ × List UInt8))
  | 0, _, _ => none
  | fuel + 1, offset, j =>
    if d.blockSize ≤ offset then some (.inl j)
    else
      let entry := recordAt b offset
      if entry.inode = 0 then some (.inr (.error (-Vfs.enoent)))
      else if j = index then some (.inr (d.entryResult tail bgd entry))
      else readdirBlock b index fuel (offset + entry.size) (j + 1)

/-- The loop over the blocks; the buffer is cleared before each read. -/
def readdirFrom (index : ℕ) :
    (fuel i j : ℕ) → Option (Except ℤ (List UInt8 × ℕ × List UInt8))
  | 0, _, _ => none
  | fuel + 1, i, j =>
    let r := d.read tail (2 * d.blockSize) i
    if r.1 ≤ 0 then some (.error (-Vfs.enoent))
    else
      match d.readdirBlock tail bgd (fun o => r.2.getD o 0) index (d.blockSize + 1) 0 j with
      | none => none
      | some (.inl j) => readdirFrom index fuel ((i + d.blockSize) % word32) j
      | some (.inr result) => some result

/-- `ext2_readdir`; `none` if a loop does not end. -/
def readdir (index : ℕ) : Option (Except ℤ (List UInt8 × ℕ × List UInt8)) :=
  if d.typePermission &&& 0x4000 = 0 then some (.error (-enotdir))
  else d.readdirFrom tail bgd index (d.size / d.blockSize + 2) 0 0

end Ext2Directory

/-! ### Directories on the drive -/

/-- A list of records fills a block from an offset on. -/
def Tiles (blockSize : ℕ) (b : ℕ → UInt8) : (offset : ℕ) → List DirRecord → Prop
  | offset, [] => offset = blockSize
  | offset, r :: rs => recordAt b offset = r ∧ 8 + r.nameLength ≤ r.size ∧
      Tiles blockSize b (offset + r.size) rs

def DirRecord.used (r : DirRecord) : Bool := r.inode ≠ 0

section Records
variable {blockSize o : ℕ} {b b' : ℕ → UInt8} {rs : List DirRecord}

theorem recordAt_congr (h : ∀ j < 8 + (b (o + 6)).toNat, b (o + j) = b' (o + j)) :
    recordAt b' o = recordAt b o := by
  have hlen := h 6 (by omega)
  have hname : slice b' (o + 8) (b (o + 6)).toNat = slice b (o + 8) (b (o + 6)).toNat :=
    slice_congr fun k hk => by rw [Nat.add_assoc, h _ (by omega)]
  have hword : Ext2Volume.word b' o = Ext2Volume.word b o :=
    Ext2Inodes.word_congr fun k hk => (h k (by omega)).symm
  rw [recordAt, recordAt, hword, ← hlen, hname, h 4 (by omega), h 5 (by omega)]

theorem Tiles.le (h : Tiles blockSize b o rs) : o ≤ blockSize := by
  induction rs generalizing o with
  | nil => exact h.le
  | cons r rs ih =>
    have := ih h.2.2
    omega

/-- Only the bytes of the block matter. -/
theorem Tiles.congr (hb : ∀ j < blockSize, b j = b' j) (h : Tiles blockSize b o rs) :
    Tiles blockSize b' o rs := by
  induction rs generalizing o with
  | nil => exact h
  | cons r rs ih =>
    obtain ⟨hr, hsize, hrest⟩ := h
    have hle := hrest.le
    refine ⟨?_, hsize, ih hrest⟩
    rw [← hr]
    refine recordAt_congr fun j hj => hb _ ?_
    have hlen : (b (o + 6)).toNat = r.nameLength := by rw [← hr]; rfl
    omega

end Records

namespace Ext2Directory

/-- The directory has `blocks` blocks, the records of which are `records`. -/
structure WellFormed (d : Ext2Directory) (blocks : ℕ) (records : ℕ → List DirRecord) : Prop where
  isDirectory : d.typePermission &&& 0x4000 ≠ 0
  blocks_le : blocks ≤ 12
  size_eq : d.size = blocks * d.blockSize
  present : ∀ k < blocks, d.blockNumber k ≠ 0
  tiles : ∀ k < blocks, Tiles d.blockSize (d.storedByte (d.blockNumber k)) 0 (records k)
  names : ∀ k < blocks, ∀ r ∈ records k, r.used → 0 ∉ r.name

def used (blocks : ℕ) (records : ℕ → List DirRecord) : List DirRecord :=
  ((List.range blocks).flatMap records).filter DirRecord.used

/-- `ext2_readdir` gives the records in use one after the other, and then an error. -/
def Lists (d : Ext2Directory) (tail : ℕ → UInt8) (bgd : ℕ) (rs : List DirRecord) : Prop :=
  ∀ k, match rs[k]? with
    | some r => ∃ inode, d.readdir tail bgd k = some (.ok (r.name, r.inode, inode))
    | none => d.readdir tail bgd k = some (.error (-Vfs.enoent))

/-- The block can be read together with the next one. -/
def Buffered (d : Ext2Directory) (blocks k : ℕ) : Prop :=
  d.CanRead (d.blockNumber k) ∧ (k + 1 < blocks → d.CanRead (d.blockNumber (k + 1)))

instance (d : Ext2Directory) (blocks k : ℕ) : Decidable (d.Buffered blocks k) :=
  inferInstanceAs (Decidable (_ ∧ _))

/-- The records from block `k` on, up to the first one that is not in use, or to the end of the
blocks that can be read. -/
def reached (d : Ext2Directory) (blocks : ℕ) (records : ℕ → List DirRecord) (k : ℕ) :
    List DirRecord :=
  (((List.range' k (blocks - k)).takeWhile fun k => d.Buffered blocks k).flatMap records).takeWhile
    DirRecord.used

/-! ### The walk over the records -/

variable {d : Ext2Directory} {tail : ℕ → UInt8} {bgd index j k blocks fuel o : ℕ} {b : ℕ → UInt8}
  {rs : List DirRecord} {records : ℕ → List DirRecord}

/-- The loop over a block stops at the wanted record or at the first one not in use. -/
theorem readdirBlock_tiles (h : Tiles d.blockSize b o rs) (hj : j ≤ index)
    (hfuel : d.blockSize - o < fuel) :
    d.readdirBlock tail bgd b index fuel o j =
      match (rs.takeWhile DirRecord.used)[index - j]? with
      | some r => some (.inr (d.entryResult tail bgd r))
      | none => if rs.all DirRecord.used then some (.inl (j + rs.length))
        else some (.inr (.error (-Vfs.enoent))) := by
  induction rs generalizing o j fuel with
  | nil =>
    obtain ⟨fuel, rfl⟩ : ∃ n, fuel = n + 1 := ⟨fuel - 1, by omega⟩
    rw [readdirBlock, if_pos (show d.blockSize ≤ o from h.ge)]
    simp
  | cons r rs ih =>
    obtain ⟨fuel, rfl⟩ : ∃ n, fuel = n + 1 := ⟨fuel - 1, by omega⟩
    obtain ⟨hr, hsize, hrest⟩ := h
    have hle := hrest.le
    rw [readdirBlock, if_neg (by omega)]
    dsimp only
    rw [hr]
    by_cases hused : r.inode = 0
    · rw [if_pos hused]
      simp [DirRecord.used, hused]
    · have hone : r.used = true := by simpa [DirRecord.used] using hused
      rw [if_neg hused, List.takeWhile_cons_of_pos hone]
      by_cases hindex : j = index
      · rw [if_pos hindex, hindex, Nat.sub_self]
        rfl
      · rw [if_neg hindex, ih hrest (by omega) (by omega),
          show index - j = index - (j + 1) + 1 by omega, List.getElem?_cons_succ]
        simp only [List.all_cons, hone, Bool.true_and, List.length_cons]
        rw [Nat.add_right_comm, Nat.add_assoc]

/-- The blocks that are read for block `k` of a directory. -/
theorem walk_blocks (tail : ℕ → UInt8) (hle : blocks ≤ 12) (hpresent : ∀ k < blocks, d.blockNumber k ≠ 0)
    (hk : k < blocks) : ∃ rest, d.walk tail (k * d.blockSize) =
      d.readBlock tail (d.blockNumber k) :: rest ∧ (k + 1 < blocks →
        ∃ rest', rest = d.readBlock tail (d.blockNumber (k + 1)) :: rest') := by
  have hpos := d.blockSize_pos
  obtain ⟨more, hmore⟩ := d.direct_isPrefix tail (k * d.blockSize)
  rw [Nat.mul_div_cancel _ hpos, Nat.mul_mod_left, Ext2Volume.blockFrom_zero] at hmore
  have hdrop : ∀ i < blocks, d.directBlockPointers.drop i =
      d.blockNumber i :: d.directBlockPointers.drop (i + 1) := by
    intro i hi
    obtain ⟨hlt, hval⟩ := List.getElem?_eq_some_iff.mp
      (Ext2File.blockNumber_direct (f := d.toExt2File) (show i < 12 by omega))
    rw [List.drop_eq_getElem_cons hlt, hval]
  have htake : ∀ i < blocks, (d.directBlockPointers.drop i).takeWhile (· ≠ 0) =
      d.blockNumber i :: (d.directBlockPointers.drop (i + 1)).takeWhile (· ≠ 0) := by
    intro i hi
    rw [hdrop i hi, List.takeWhile_cons_of_pos (by simpa using hpresent i hi)]
  rw [htake k hk, List.map_cons, List.cons_append] at hmore
  refine ⟨_, hmore.symm, fun hnext => ?_⟩
  rw [htake (k + 1) hnext, List.map_cons, List.cons_append]
  exact ⟨_, rfl⟩

section Blocks
variable (hsize : d.size = blocks * d.blockSize) (hle : blocks ≤ 12)
  (hpresent : ∀ k < blocks, d.blockNumber k ≠ 0)
include hsize hle

/-- Two blocks are read, or one at the end. -/
theorem read_eq (hk : k < blocks) : d.read tail (2 * d.blockSize) (k * d.blockSize) =
    copyResult (copyBlocks d.blockSize 0 (d.walk tail (k * d.blockSize))
      (if k + 1 < blocks then d.blockSize + d.blockSize else d.blockSize)) := by
  have hpos := d.blockSize_pos
  have hbs : d.blockSize ≤ 65536 := d.toExt2Inodes.blockSize_le
  have hlt : k * d.blockSize < d.size := by
    rw [hsize]
    exact Nat.mul_lt_mul_of_pos_right hk hpos
  have hwrap : k * d.blockSize + 2 * d.blockSize < word32 := by
    have := Nat.mul_le_mul (show k ≤ 12 by omega) hbs
    rw [word32]
    omega
  have hcount : min (2 * d.blockSize) (d.size - k * d.blockSize) =
      if k + 1 < blocks then d.blockSize + d.blockSize else d.blockSize := by
    rw [hsize, ← Nat.sub_mul]
    split_ifs with hnext
    · have := Nat.mul_le_mul_right d.blockSize (show 2 ≤ blocks - k by omega)
      omega
    · rw [show blocks - k = 1 by omega]
      omega
  rw [Ext2File.read, if_neg (by omega), clip_eq hlt hwrap, hcount, Ext2File.readBlocks_walk]

include hpresent

/-- The buffer for block `k`, if it can be filled. -/
theorem read_buffered (tail : ℕ → UInt8) (hk : k < blocks) (h : d.Buffered blocks k) :
    0 < (d.read tail (2 * d.blockSize) (k * d.blockSize)).1 ∧
      ∀ j < d.blockSize, (d.read tail (2 * d.blockSize) (k * d.blockSize)).2.getD j 0 =
        d.blockByte (d.blockNumber k) j := by
  have hpos := d.blockSize_pos
  have hbs : d.blockSize ≤ 65536 := d.toExt2Inodes.blockSize_le
  obtain ⟨rest, hwalk, hrest⟩ := walk_blocks tail hle hpresent hk
  rw [Ext2Volume.readBlock_of_canRead h.1] at hwalk
  generalize hb : d.driver.buffer tail d.blockSize _ = block at hwalk
  -- the copy is the block, and the next one behind it
  have hcopy : ∃ more, copyBlocks d.blockSize 0 (d.walk tail (k * d.blockSize))
      (if k + 1 < blocks then d.blockSize + d.blockSize else d.blockSize) =
        ⟨slice block 0 d.blockSize ++ more, 0, true⟩ ∧ more.length ≤ d.blockSize := by
    rw [hwalk]
    split_ifs with hnext
    · obtain ⟨rest', rfl⟩ := hrest hnext
      rw [Ext2Volume.readBlock_of_canRead (h.2 hnext), copyBlocks_cons _ _ _ _ (by omega),
        Nat.min_eq_right (by omega), Nat.add_sub_cancel, copyBlocks_cons _ _ _ _ hpos,
        Nat.min_self, Nat.sub_self, copyBlocks_zero]
      exact ⟨_, rfl, by simp⟩
    · rw [copyBlocks_cons _ _ _ _ hpos, Nat.min_self, Nat.sub_self, copyBlocks_zero]
      exact ⟨[], rfl, by simp⟩
  obtain ⟨more, hcopy, hmore⟩ := hcopy
  rw [read_eq hsize hle hk, hcopy, result_of_ok rfl (by simp only [List.length_append, slice_length]; omega)]
  refine ⟨by simp; omega, fun j hj => ?_⟩
  dsimp only
  rw [List.getD_eq_getElem?_getD, List.getElem?_append_left (by rw [slice_length]; exact hj),
    slice_getElem? _ hj, Nat.zero_add, Option.getD_some, ← hb]
  exact Ext2Volume.buffer_block tail _ hj

theorem read_not_buffered (hk : k < blocks) (h : ¬ d.Buffered blocks k) :
    (d.read tail (2 * d.blockSize) (k * d.blockSize)).1 = -eio := by
  have hpos := d.blockSize_pos
  obtain ⟨rest, hwalk, hrest⟩ := walk_blocks tail hle hpresent hk
  rw [read_eq hsize hle hk, hwalk]
  by_cases hread : d.CanRead (d.blockNumber k)
  · have hnot : ¬ (k + 1 < blocks → d.CanRead (d.blockNumber (k + 1))) := fun hnext => h ⟨hread, hnext⟩
    obtain ⟨hnext, hfails⟩ := Classical.not_imp.mp hnot
    obtain ⟨rest', rfl⟩ := hrest hnext
    rw [if_pos hnext, Ext2Volume.readBlock_of_canRead hread,
      Ext2Volume.readBlock_of_not_canRead hfails, copyBlocks_cons _ _ _ _ (by omega),
      Nat.min_eq_right (by omega), Nat.add_sub_cancel, copyBlocks, if_neg hpos.ne']
    rfl
  · rw [Ext2Volume.readBlock_of_not_canRead hread, copyBlocks, if_neg (by split_ifs <;> omega)]
    rfl

end Blocks

/-- The walk from a block on, with `j` records before it. -/
theorem readdirFrom_eq (hwf : d.WellFormed blocks records)
    (hfits : ∀ k < blocks, d.Fits (d.blockNumber k)) (tail : ℕ → UInt8) (bgd : ℕ) (hk : k ≤ blocks) (hj : j ≤ index)
    (hfuel : blocks - k < fuel) :
    d.readdirFrom tail bgd index fuel (k * d.blockSize) j =
      match (d.reached blocks records k)[index - j]? with
      | some r => some (d.entryResult tail bgd r)
      | none => some (.error (-Vfs.enoent)) := by
  have hpos := d.blockSize_pos
  obtain ⟨m, hm⟩ : ∃ m, m = blocks - k := ⟨_, rfl⟩
  induction m generalizing k j fuel with
  | zero =>
    obtain ⟨fuel, rfl⟩ : ∃ n, fuel = n + 1 := ⟨fuel - 1, by omega⟩
    obtain rfl : k = blocks := by omega
    rw [readdirFrom, Ext2File.read, if_pos hwf.size_eq.le, reached, Nat.sub_self]
    simp
  | succ m ih =>
    obtain ⟨fuel, rfl⟩ : ∃ n, fuel = n + 1 := ⟨fuel - 1, by omega⟩
    have hlt : k < blocks := by omega
    have hrange : List.range' k (blocks - k) = k :: List.range' (k + 1) (blocks - (k + 1)) := by
      rw [← hm, List.range'_succ, show blocks - (k + 1) = m by omega]
    rw [readdirFrom, reached, hrange]
    by_cases hbuf : d.Buffered blocks k
    · obtain ⟨hret, hbytes⟩ := read_buffered hwf.size_eq hwf.blocks_le hwf.present tail
        hlt hbuf
      have htiles := (hwf.tiles k hlt).congr fun j hj =>
        (((hfits k hlt).blockByte_eq hj).symm.trans (hbytes j hj).symm)
      rw [if_neg (not_le.mpr hret), readdirBlock_tiles htiles hj (by omega),
        List.takeWhile_cons_of_pos (by simpa using hbuf), List.flatMap_cons]
      generalize hlater : ((List.range' (k + 1) (blocks - (k + 1))).takeWhile
        fun k => decide (d.Buffered blocks k)).flatMap records = later
      cases hget : ((records k).takeWhile DirRecord.used)[index - j]? with
      | some r =>
        -- the record is in this block
        have hprefix : (records k).takeWhile DirRecord.used <+:
            (records k ++ later).takeWhile DirRecord.used := by
          rw [List.takeWhile_append]
          split_ifs with hall
          · exact (List.takeWhile_prefix _).trans (List.prefix_append _ _)
          · exact List.prefix_refl _
        obtain ⟨hindex, hval⟩ := List.getElem?_eq_some_iff.mp hget
        rw [List.prefix_iff_getElem?.mp hprefix _ hindex, hval]
      | none =>
        have hlen := List.getElem?_eq_none_iff.mp hget
        cases hall : (records k).all DirRecord.used with
        | true =>
          -- all records of the block were counted
          have hself : (records k).takeWhile DirRecord.used = records k :=
            List.takeWhile_eq_self_iff.mpr (List.all_eq_true.mp hall)
          have hstep : (k * d.blockSize + d.blockSize) % word32 = (k + 1) * d.blockSize := by
            have hle := Nat.mul_le_mul_right d.blockSize (show k + 1 ≤ blocks from hlt)
            have hsize := d.size_lt
            rw [hwf.size_eq] at hsize
            rw [← Nat.succ_mul]
            exact Nat.mod_eq_of_lt (hle.trans_lt hsize)
          rw [hself] at hlen
          rw [if_pos rfl]
          dsimp only
          rw [hstep, ih (by omega) (by omega) (by omega) (by omega), List.takeWhile_append,
            hself, if_pos rfl, List.getElem?_append_right hlen, Nat.sub_sub, reached, hlater]
        | false =>
          have hne : ((records k).takeWhile DirRecord.used).length ≠ (records k).length := by
            intro hlength
            have hself := (List.takeWhile_prefix _).eq_of_length hlength
            rw [List.all_eq_true.mpr (List.takeWhile_eq_self_iff.mp hself)] at hall
            cases hall
          rw [List.takeWhile_append, if_neg hne, hget]
          rfl
    · rw [if_pos (by rw [read_not_buffered hwf.size_eq hwf.blocks_le hwf.present hlt hbuf]; decide),
        List.takeWhile_cons_of_neg (by simpa using hbuf)]
      simp

theorem readdir_eq (hwf : d.WellFormed blocks records)
    (hfits : ∀ k < blocks, d.Fits (d.blockNumber k)) (tail : ℕ → UInt8) (bgd index : ℕ) :
    d.readdir tail bgd index = match (d.reached blocks records 0)[index]? with
      | some r => some (d.entryResult tail bgd r)
      | none => some (.error (-Vfs.enoent)) := by
  have hfuel : blocks - 0 < d.size / d.blockSize + 2 := by
    rw [hwf.size_eq, Nat.mul_div_cancel _ d.blockSize_pos]
    omega
  have hfrom := readdirFrom_eq hwf hfits tail bgd (Nat.zero_le _) (Nat.zero_le index) hfuel
  rw [Nat.zero_mul, Nat.sub_zero] at hfrom
  rw [readdir, if_neg hwf.isDirectory, hfrom]

/-- Only records in use are reached, in their order. -/
theorem reached_isPrefix (d : Ext2Directory) (blocks : ℕ) (records : ℕ → List DirRecord) :
    d.reached blocks records 0 <+: used blocks records := by
  have htake : ∀ rs : List DirRecord, rs.takeWhile DirRecord.used <+: rs.filter DirRecord.used := by
    intro rs
    induction rs with
    | nil => exact List.prefix_refl _
    | cons r rs ih =>
      cases hused : r.used with
      | false =>
        rw [List.takeWhile_cons_of_neg (by simp [hused])]
        exact List.nil_prefix
      | true =>
        rw [List.takeWhile_cons_of_pos hused, List.filter_cons_of_pos hused]
        exact (List.prefix_cons_inj r).mpr ih
  have hflat : ∀ ks ks' : List ℕ, ks <+: ks' →
      (ks.flatMap records).filter DirRecord.used <+: (ks'.flatMap records).filter DirRecord.used := by
    rintro ks _ ⟨more, rfl⟩
    rw [List.flatMap_append, List.filter_append]
    exact List.prefix_append _ _
  rw [reached, used, List.range_eq_range', Nat.sub_zero]
  exact (htake _).trans (hflat _ _ (List.takeWhile_prefix _))

/-- A directory is listed exactly if all of its records in use stand before the first one that
is not, and before the first block that cannot be read together with the next, and their inodes
can be read. -/
theorem readdir_lists_iff (hwf : d.WellFormed blocks records)
    (hfits : ∀ k < blocks, d.Fits (d.blockNumber k)) (tail : ℕ → UInt8) (bgd : ℕ) :
    d.Lists tail bgd (used blocks records) ↔
      d.reached blocks records 0 = used blocks records ∧
        ∀ r ∈ used blocks records, (d.readInode tail bgd r.inode).1 = 0 := by
  have hprefix := d.reached_isPrefix blocks records
  constructor
  · intro hlists
    have hget : ∀ k (hk : k < (used blocks records).length),
        ∃ r, (d.reached blocks records 0)[k]? = some r ∧ (d.readInode tail bgd r.inode).1 = 0 := by
      intro k hk
      have hcall := hlists k
      rw [List.getElem?_eq_getElem hk, readdir_eq hwf hfits] at hcall
      obtain ⟨inode, hok⟩ := hcall
      cases hr : (d.reached blocks records 0)[k]? with
      | none =>
        rw [hr] at hok
        cases hok
      | some r =>
        rw [hr] at hok
        dsimp only at hok
        refine ⟨r, rfl, ?_⟩
        by_contra hne
        rw [entryResult, if_neg hne] at hok
        cases hok
    have hlen : (used blocks records).length ≤ (d.reached blocks records 0).length := by
      by_contra hlt
      obtain ⟨r, hr, -⟩ := hget _ (Nat.lt_of_not_le hlt)
      rw [List.getElem?_eq_none le_rfl] at hr
      cases hr
    have hreached := hprefix.eq_of_length_le hlen
    refine ⟨hreached, fun r hr => ?_⟩
    obtain ⟨k, hk, rfl⟩ := List.getElem_of_mem hr
    obtain ⟨r, hr, hread⟩ := hget k hk
    rw [hreached, List.getElem?_eq_getElem hk] at hr
    rwa [Option.some.inj hr]
  · rintro ⟨hreached, hinodes⟩ k
    rw [readdir_eq hwf hfits, hreached]
    cases hr : (used blocks records)[k]? with
    | none => rfl
    | some r =>
      have hmem := List.mem_of_getElem? hr
      -- the name has no zero byte in it
      have hname : r.name.takeWhile (· ≠ 0) = r.name := by
        rw [used, List.mem_filter, List.mem_flatMap] at hmem
        obtain ⟨⟨i, hi, hrecord⟩, hused⟩ := hmem
        have hzero := hwf.names i (List.mem_range.mp hi) r hrecord hused
        refine List.takeWhile_eq_self_iff.mpr fun c hc => ?_
        simpa using fun h : c = 0 => hzero (h ▸ hc)
      refine ⟨(d.readInode tail bgd r.inode).2, ?_⟩
      dsimp only
      rw [entryResult, if_pos (hinodes r hmem), hname]

end Ext2Directory

/-- The bytes of three directories: one entry in block 10; in block 11 the same entry behind a
record that is not in use; in the blocks 12 and 13 four entries and such a record behind them. -/
def directoryDrive : IoDriver where
  sectorSize := 1024
  sector := fun lba j =>
    if lba = 2 then if j = 8 then 5 else 0
    else if lba = 10 then [2, 0, 0, 0, 0, 4, 1, 0, 97].getD j 0
    else if lba = 11 then
      [0, 0, 0, 0, 12, 0, 1, 0, 98, 0, 0, 0, 2, 0, 0, 0, 244, 3, 1, 0, 97].getD j 0
    else if lba = 12 then
      [2, 0, 0, 0, 12, 0, 1, 2, 46, 0, 0, 0, 2, 0, 0, 0, 12, 0, 2, 2, 46, 46, 0, 0,
        11, 0, 0, 0, 232, 3, 2, 1, 97, 98].getD j 0
    else if lba = 13 then
      [12, 0, 0, 0, 12, 0, 1, 1, 99, 0, 0, 0, 0, 0, 0, 0, 244, 3, 1, 1, 98].getD j 0
    else 0
  fails := fun _ _ => false
  sectorSize_pos := sector1024_pos

def directoryExample (p : ℕ) : Ext2Directory where
  driver := directoryDrive
  startLba := 0
  log2BlockSize := 0
  size := 1024
  directBlockPointers := [p, 0, 0, 0, 0, 0, 0, 0, 0, 0, 0, 0]
  singlyIndirect := 0
  doublyIndirect := 0
  triplyIndirect := 0
  inodes := 16
  inodesPerGroup := 16
  inodeSize := 128
  typePermission := 0x41ed
  log2_le := smallestBlock_le
  sector_dvd := ⟨1, rfl⟩
  size_lt := by decide
  direct_length := rfl
  log2_le_six := inodeExample.log2_le_six
  perGroup_pos := inodeExample.perGroup_pos
  perGroup_le := inodeExample.perGroup_le
  inodeSize_ge := by decide
  inodeSize_dvd := ⟨8, rfl⟩
  inodes_lt := inodeExample.inodes_lt

namespace Ext2Directory

def twoBlocks : Ext2Directory :=
  { directoryExample 12 with
    size := 2048
    directBlockPointers := [12, 13, 0, 0, 0, 0, 0, 0, 0, 0, 0, 0]
    size_lt := size2048_lt
    direct_length := rfl }

def twoBlocksRecords (k : ℕ) : List DirRecord :=
  if k = 0 then [⟨2, 12, 1, [46]⟩, ⟨2, 12, 2, [46, 46]⟩, ⟨11, 1000, 2, [97, 98]⟩]
  else [⟨12, 12, 1, [99]⟩, ⟨0, 1012, 1, [98]⟩]

theorem twoBlocks_wellFormed : twoBlocks.WellFormed 2 twoBlocksRecords := by
  refine ⟨by decide, by decide, rfl, by decide, fun k hk => ?_, by decide⟩
  rcases Nat.le_one_iff_eq_zero_or_eq_one.mp (Nat.le_of_lt_succ hk) with rfl | rfl
  · exact ⟨by decide +kernel, by decide, by decide +kernel, by decide, by decide +kernel, by decide,
      rfl⟩
  · exact ⟨by decide +kernel, by decide, by decide +kernel, by decide, rfl⟩

/-- The record that is not in use is the last one. -/
theorem readdir_lists_of_two_blocks :
    (used 2 twoBlocksRecords).map DirRecord.name = [[46], [46, 46], [97, 98], [99]] ∧
      twoBlocks.Lists (fun _ => 0xff) 0 (used 2 twoBlocksRecords) :=
  ⟨rfl, (readdir_lists_iff twoBlocks_wellFormed (by decide) _ _).mpr
    ⟨by decide +kernel, by decide +kernel⟩⟩

/-- A record that is not in use before the only entry hides it. -/
theorem readdir_lists_wrong :
    ¬ ∀ (d : Ext2Directory) (blocks : ℕ) (records : ℕ → List DirRecord) (tail : ℕ → UInt8) (bgd : ℕ),
      d.WellFormed blocks records → (∀ k < blocks, d.Fits (d.blockNumber k)) →
      d.driver.Answers → d.Lists tail bgd (used blocks records) := by
  intro h
  have hwf : (directoryExample 11).WellFormed 1 fun _ => [⟨0, 12, 1, [98]⟩, ⟨2, 1012, 1, [97]⟩] := by
    refine ⟨by decide, by decide, rfl, by decide, fun k hk => ?_, by decide⟩
    obtain rfl : k = 0 := by omega
    exact ⟨by decide +kernel, by decide, by decide +kernel, by decide, rfl⟩
  have hfirst := h (directoryExample 11) 1 _ (fun _ => 0) 0 hwf (by decide)
    (fun _ => ⟨0, by decide, rfl⟩) 0
  obtain ⟨inode, hok⟩ := hfirst
  rw [readdir_eq hwf (by decide)] at hok
  have hreached : (directoryExample 11).reached 1 (fun _ => [⟨0, 12, 1, [98]⟩, ⟨2, 1012, 1, [97]⟩]) 0 =
      [] := by decide +kernel
  rw [hreached] at hok
  cases hok

end Ext2Directory

end DosKernel
