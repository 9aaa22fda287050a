import DosKernel.Fs.Coherence
import DosKernel.Fs.Ext2Directory
import DosKernel.Fs.FatInit
import DosKernel.Lib.Orbit

/-! Lookups on an ext2 volume with any contents. `ext2_readdir` counts the records that it comes
to, from the start of the directory each time, and returns when it has counted enough of them;
`vfs_stat` asks for one record after the other until it has found the name or gets an error. -/

namespace DosKernel

open Lib

/-- An ext2 volume with any superblock that can be mounted: the inode of the root directory is
read then, which divides by the number of inodes in a group. -/
structure Ext2Image extends Ext2Volume where
  inodesPerGroup : ℕ
  perGroup_pos : 0 < inodesPerGroup

/-- What a `struct stat` of an ext2 volume stands for: the number of an inode, and the inode. -/
structure Ext2Object where
  image : Ext2Image
  ino : ℕ
  inode : List UInt8

namespace Ext2Image
variable (v : Ext2Image) (tail : ℕ → UInt8) (bgd : ℕ)

/-- `ext2_read_inode`; `bgd` is what lies in the uninitialised descriptor. -/
def readInode (index : ℕ) : ℤ × List UInt8 :=
  let group := (index - 1) / v.inodesPerGroup
  let i := (index - 1) % v.inodesPerGroup
  let block := ((v.readBgd tail group).getD bgd + i * 128 % word32 / v.blockSize) % word32
  match v.readBlock tail block with
  | none => (-eio, [])
  | some buffer => (0, slice buffer (i * 128 % word32 % v.blockSize) 128)

end Ext2Image

namespace Ext2Object
variable (d : Ext2Object) (tail : ℕ → UInt8) (bgd : ℕ)

def byte (j : ℕ) : UInt8 := d.inode.getD j 0

/-- `type_permission`, which is `st_mode`. -/
def mode : ℕ := halfword d.byte 0

def file : Ext2File where
  toExt2Volume := d.image.toExt2Volume
  size := Ext2Volume.word d.byte 4
  directBlockPointers := (List.range 12).map fun k => Ext2Volume.word d.byte (40 + 4 * k)
  singlyIndirect := Ext2Volume.word d.byte 88
  doublyIndirect := Ext2Volume.word d.byte 92
  triplyIndirect := Ext2Volume.word d.byte 96
  size_lt := Ext2Inodes.word_lt _ _
  direct_length := by rw [List.length_map, List.length_range]

/-- The name of a record and the object that it stands for. -/
def entryResult (entry : DirRecord) : Except ℤ (List UInt8 × Ext2Object) :=
  let r := d.image.readInode tail bgd entry.inode
  if r.1 = 0 then .ok (entry.name.takeWhile (· ≠ 0), ⟨d.image, entry.inode, r.2⟩) else .error (-eio)

/-- The loop over the records of a block: it goes on with the next block and a count of records,
or it returns. -/
def readdirBlock (b : ℕ → UInt8) (index : ℕ) :
    (fuel offset j : ℕ) → Option (ℕ ⊕ Except ℤ (List UInt8 × Ext2Object))
  | 0, _, _ => none
  | fuel + 1, offset, j =>
    if d.file.blockSize ≤ offset then some (.inl j)
    else
      let entry := recordAt b offset
      if entry.inode = 0 then some (.inr (.error (-Vfs.enoent)))
      else if j = index then some (.inr (d.entryResult tail bgd entry))
      else readdirBlock b index fuel (offset + entry.size) (j + 1)

/-- `ext2_read` into the two blocks of the buffer. -/
def readBlocks (i : ℕ) : ℤ × List UInt8 := d.file.read tail (2 * d.file.blockSize) i

/-- The loop over the blocks; the buffer is cleared before each read. -/
def readdirFrom (index : ℕ) :
    (fuel i j : ℕ) → Option (Except ℤ (List UInt8 × Ext2Object))
  | 0, _, _ => none
  | fuel + 1, i, j =>
    let r := d.readBlocks tail i
    if r.1 ≤ 0 then some (.error (-Vfs.enoent))
    else
      match d.readdirBlock tail bgd (fun o => r.2.getD o 0) index (index + 2) 0 j with
      | none => none
      | some (.inl j) => readdirFrom index fuel ((i + d.file.blockSize) % word32) j
      | some (.inr result) => some result

/-- `ext2_readdir`; `none` if a loop has not ended. -/
def readdir (index : ℕ) : Option (Except ℤ (List UInt8 × Ext2Object)) :=
  if d.mode &&& 0x4000 = 0 then some (.error (-enotdir))
  else d.readdirFrom tail bgd index (index + 1) 0 0

/-! ### The walk over the records -/

/-- The record at a position of the directory, as it lies in the buffer. -/
def recordAt (p : ℕ) : DirRecord :=
  DosKernel.recordAt (fun o => (d.readBlocks tail (p - p % d.file.blockSize)).2.getD o 0)
    (p % d.file.blockSize)

/-- There is a record at a position, and it is in use. -/
def Live (p : ℕ) : Prop :=
  0 < (d.readBlocks tail (p - p % d.file.blockSize)).1 ∧ (d.recordAt tail p).inode ≠ 0

instance (p : ℕ) : Decidable (d.Live tail p) := inferInstanceAs (Decidable (_ ∧ _))

/-- The position behind a record: the next block begins where this one ends. -/
def next (p : ℕ) : ℕ :=
  if p % d.file.blockSize + (d.recordAt tail p).size < d.file.blockSize then
    p + (d.recordAt tail p).size
  else (p - p % d.file.blockSize + d.file.blockSize) % word32

/-- What the walk comes to after so many records. -/
def walkTo : (n p : ℕ) → Except ℤ (List UInt8 × Ext2Object)
  | 0, p => if d.Live tail p then d.entryResult tail bgd (d.recordAt tail p) else .error (-Vfs.enoent)
  | n + 1, p => if d.Live tail p then walkTo n (d.next tail p) else .error (-Vfs.enoent)

variable {d tail bgd} {index fuel i j n p : ℕ}

theorem blockSize_pos (d : Ext2Object) : 0 < d.file.blockSize := d.file.blockSize_pos

theorem same_block {s : ℕ} (h : p % d.file.blockSize + s < d.file.blockSize) :
    (p + s) % d.file.blockSize = p % d.file.blockSize + s ∧
      p + s - (p + s) % d.file.blockSize = p - p % d.file.blockSize := by
  have hmod : (p + s) % d.file.blockSize = p % d.file.blockSize + s := by
    rw [← Nat.mod_add_mod, Nat.mod_eq_of_lt h]
  have hle := Nat.mod_le p d.file.blockSize
  exact ⟨hmod, by omega⟩

/-- The walk goes nowhere from a record that is not in use. -/
theorem walkTo_dead (h : ¬ d.Live tail p) (n : ℕ) :
    d.walkTo tail bgd n p = .error (-Vfs.enoent) := by
  cases n with
  | zero => rw [walkTo, if_neg h]
  | succ n => rw [walkTo, if_neg h]

/-- The loop over a block returns what the walk comes to, or goes on where it does. -/
theorem readdirBlock_eq (hp : p - p % d.file.blockSize = i) (hread : 0 < (d.readBlocks tail i).1)
    (hj : j ≤ index) (hfuel : index - j + 1 < fuel) :
    d.readdirBlock tail bgd (fun o => (d.readBlocks tail i).2.getD o 0) index fuel
        (p % d.file.blockSize) j = some (.inr (d.walkTo tail bgd (index - j) p)) ∨
      ∃ j', j < j' ∧ j' ≤ index ∧ d.readdirBlock tail bgd
        (fun o => (d.readBlocks tail i).2.getD o 0) index fuel (p % d.file.blockSize) j =
          some (.inl j') ∧ d.walkTo tail bgd (index - j) p =
            d.walkTo tail bgd (index - j') ((i + d.file.blockSize) % word32) := by
  have hpos := d.blockSize_pos
  induction fuel generalizing p j with
  | zero => omega
  | succ fuel ih =>
    have hrecord : DosKernel.recordAt (fun o => (d.readBlocks tail i).2.getD o 0)
        (p % d.file.blockSize) = d.recordAt tail p := by rw [recordAt, hp]
    have hlive : d.Live tail p ↔ (d.recordAt tail p).inode ≠ 0 := by
      rw [Live, hp]
      exact and_iff_right hread
    rw [readdirBlock, if_neg (Nat.not_le.mpr (Nat.mod_lt p hpos))]
    dsimp only
    rw [hrecord]
    by_cases hinode : (d.recordAt tail p).inode = 0
    · -- a record that is not in use ends the directory
      have hdead : ¬ d.Live tail p := fun h => hlive.mp h hinode
      rw [if_pos hinode, walkTo_dead hdead]
      exact .inl rfl
    · have hgo : d.Live tail p := hlive.mpr hinode
      rw [if_neg hinode]
      by_cases hindex : j = index
      · rw [if_pos hindex, hindex, Nat.sub_self, walkTo, if_pos hgo]
        exact .inl rfl
      · have hstep : d.walkTo tail bgd (index - j) p =
            d.walkTo tail bgd (index - (j + 1)) (d.next tail p) := by
          rw [show index - j = index - (j + 1) + 1 by omega, walkTo, if_pos hgo]
        rw [if_neg hindex, hstep, next]
        split_ifs with hblock
        · obtain ⟨hmod, hbase⟩ := same_block hblock
          have hrest := ih (p := p + (d.recordAt tail p).size) (j := j + 1) (hbase.trans hp)
            (by omega) (by omega)
          rw [hmod] at hrest
          rcases hrest with hdone | ⟨j', hlt, hle, hout, hwalk⟩
          · exact .inl hdone
          · exact .inr ⟨j', by omega, hle, hout, hwalk⟩
        · -- the block ends
          right
          refine ⟨j + 1, Nat.lt_succ_self j, by omega, ?_, by rw [hp]⟩
          obtain ⟨n, rfl⟩ : ∃ n, fuel = n + 1 := ⟨fuel - 1, by omega⟩
          rw [readdirBlock, if_pos (Nat.le_of_not_lt hblock)]

/-- The loop over the blocks returns what the walk comes to. -/
theorem readdirFrom_eq (hi : i % d.file.blockSize = 0) (hdvd : d.file.blockSize ∣ word32)
    (hj : j ≤ index) (hfuel : index - j < fuel) :
    d.readdirFrom tail bgd index fuel i j = some (d.walkTo tail bgd (index - j) i) := by
  induction fuel generalizing i j with
  | zero => omega
  | succ fuel ih =>
    have hbase : i - i % d.file.blockSize = i := by rw [hi, Nat.sub_zero]
    rw [readdirFrom]
    by_cases hread : (d.readBlocks tail i).1 ≤ 0
    · have hdead : ¬ d.Live tail i := fun h => by
        rw [Live, hbase] at h
        exact absurd h.1 (not_lt.mpr hread)
      rw [if_pos hread, walkTo_dead hdead]
    · rw [if_neg hread]
      have hblock : d.readdirBlock tail bgd (fun o => (d.readBlocks tail i).2.getD o 0) index
          (index + 2) (i % d.file.blockSize) j = _ ∨ _ :=
        readdirBlock_eq hbase (not_le.mp hread) hj (by omega)
      rw [hi] at hblock
      rcases hblock with hdone | ⟨j', hlt, hle, hout, hwalk⟩
      · rw [hdone]
      · rw [hout, hwalk]
        refine ih ?_ hle (by omega)
        rw [Nat.mod_mod_of_dvd _ hdvd, Nat.add_mod_right, hi]

theorem blockSize_dvd (d : Ext2Object) : d.file.blockSize ∣ word32 := by
  have hsize : d.file.blockSize = 2 ^ (10 + d.image.log2BlockSize) := by
    rw [Nat.pow_add]
    rfl
  have hlog := d.image.log2_le
  rw [hsize, show word32 = 2 ^ 32 by decide]
  exact Nat.pow_dvd_pow 2 (by omega)

/-- A call of `ext2_readdir` ends: it returns what the walk comes to. -/
theorem readdir_eq (hdir : d.mode &&& 0x4000 ≠ 0) (index : ℕ) :
    d.readdir tail bgd index = some (d.walkTo tail bgd index 0) := by
  rw [readdir, if_neg hdir, readdirFrom_eq (Nat.zero_mod _) d.blockSize_dvd (Nat.zero_le _)
    (by omega), Nat.sub_zero]

theorem readdir_isSome (d : Ext2Object) (tail : ℕ → UInt8) (bgd index : ℕ) :
    (d.readdir tail bgd index).isSome := by
  by_cases hdir : d.mode &&& 0x4000 = 0
  · rw [readdir, if_pos hdir]
    rfl
  · rw [readdir_eq hdir]
    rfl

/-- The walk comes to a record if all up to it are in use. -/
theorem walkTo_of_goes (h : Goes (d.next tail) (d.Live tail) p n) :
    d.walkTo tail bgd n p = d.entryResult tail bgd (d.recordAt tail ((d.next tail)^[n] p)) := by
  induction n generalizing p with
  | zero => rw [walkTo, if_pos (goes_zero.mp h), Function.iterate_zero_apply]
  | succ n ih =>
    obtain ⟨hfirst, hrest⟩ := goes_succ.mp h
    rw [walkTo, if_pos hfirst, ih hrest, Function.iterate_succ_apply]

theorem walkTo_of_not_goes (h : ¬ Goes (d.next tail) (d.Live tail) p n) :
    d.walkTo tail bgd n p = .error (-Vfs.enoent) := by
  induction n generalizing p with
  | zero => exact walkTo_dead (mt goes_zero.mpr h) 0
  | succ n ih =>
    rw [walkTo]
    split_ifs with hfirst
    · exact ih fun hrest => h (goes_succ.mpr ⟨hfirst, hrest⟩)
    · rfl

theorem block_end_le (hp : p < word32) :
    p - p % d.file.blockSize + d.file.blockSize ≤ word32 := by
  obtain ⟨m, hm⟩ := d.blockSize_dvd
  have hdiv : p / d.file.blockSize < m := Nat.div_lt_of_lt_mul (hm ▸ hp)
  have hblock := Nat.div_add_mod p d.file.blockSize
  have hle := Nat.mul_le_mul_left d.file.blockSize (Nat.succ_le_of_lt hdiv)
  rw [Nat.mul_succ, ← hm] at hle
  omega

theorem next_lt (hp : p < word32) : d.next tail p < word32 := by
  have hend := block_end_le (d := d) hp
  have hle := Nat.mod_le p d.file.blockSize
  rw [next]
  split_ifs
  · omega
  · exact Nat.mod_lt _ (by decide)

theorem position_lt (n : ℕ) : (d.next tail)^[n] 0 < word32 := by
  induction n with
  | zero => exact show 0 < word32 by decide
  | succ n ih =>
    rw [Function.iterate_succ_apply']
    exact next_lt ih

/-! ### When a search ends -/

/-- The characters of a name. -/
def text (name : List UInt8) : List Char := name.map fun c => Char.ofNat c.toNat

/-- A search for a name passes over the record at a position. -/
def Passes (d : Ext2Object) (tail : ℕ → UInt8) (bgd : ℕ) (filename : List Char) (p : ℕ) : Prop :=
  d.Live tail p ∧ ∃ name st, d.entryResult tail bgd (d.recordAt tail p) = .ok (name, st) ∧
    text name ≠ filename

/-- The record at a position has a length, and the block behind it has a 32-bit position if the
record is the last one of its block. -/
def Advances (d : Ext2Object) (tail : ℕ → UInt8) (p : ℕ) : Prop :=
  (d.recordAt tail p).size ≠ 0 ∧
    (p % d.file.blockSize + (d.recordAt tail p).size < d.file.blockSize ∨
      p - p % d.file.blockSize + d.file.blockSize < word32)

/-- The records that a search passes over lead on. -/
def MovesOn (d : Ext2Object) (tail : ℕ → UInt8) (bgd : ℕ) (filename : List Char) : Prop :=
  ∀ n, Goes (d.next tail) (d.Passes tail bgd filename) 0 n →
    d.Advances tail ((d.next tail)^[n] 0)

variable {filename : List Char}

/-- A record that leads on is followed by another position. -/
theorem Advances.lt_next (h : d.Advances tail p) : p < d.next tail p := by
  obtain ⟨hsize, hnext⟩ := h
  have hmod := Nat.mod_lt p d.blockSize_pos
  rw [next]
  split_ifs with hblock
  · omega
  · rw [Nat.mod_eq_of_lt (hnext.resolve_left hblock)]
    have hle := Nat.mod_le p d.file.blockSize
    omega

/-- One that does not leads back to itself or to the start. -/
theorem next_of_not_advances (hp : p < word32) (h : ¬ d.Advances tail p) :
    d.next tail p = p ∨ d.next tail p = 0 := by
  rw [Advances, not_and_or, not_not, not_or] at h
  rcases h with hzero | ⟨hblock, hend⟩
  · left
    rw [next, hzero, Nat.add_zero, Nat.add_zero, if_pos (Nat.mod_lt p d.blockSize_pos)]
  · right
    have hle := block_end_le (d := d) hp
    rw [next, if_neg hblock, show p - p % d.file.blockSize + d.file.blockSize = word32 by omega,
      Nat.mod_self]

/-- A walk ends exactly if the records that it passes over lead on. -/
theorem movesOn_iff : d.MovesOn tail bgd filename ↔
    ∃ n, ¬ d.Passes tail bgd filename ((d.next tail)^[n] 0) := by
  constructor
  · intro h
    refine ends_of_lt_next position_lt fun n hgoes => ?_
    rw [Function.iterate_succ_apply']
    exact (h n hgoes).lt_next
  · intro hend n hgoes
    by_contra hstuck
    -- the next place is this one or the first one, and the walk goes on there
    have hback : ∃ i < n + 1, (d.next tail)^[i] 0 = (d.next tail)^[n + 1] 0 := by
      rw [Function.iterate_succ_apply']
      rcases next_of_not_advances (position_lt n) hstuck with hsame | hzero
      · exact ⟨n, Nat.lt_succ_self n, hsame.symm⟩
      · exact ⟨0, Nat.succ_pos n, hzero.symm⟩
    obtain ⟨i, hi, heq⟩ := hback
    have hmore : Goes (d.next tail) (d.Passes tail bgd filename) 0 (n + 1) := by
      intro k hk
      rcases hk.lt_or_eq with hlt | rfl
      · exact hgoes k (Nat.le_of_lt_succ hlt)
      · rw [← heq]
        exact hgoes i (Nat.le_of_lt_succ hi)
    exact hmore.ne_of_ends hend hi heq

end Ext2Object

namespace Vfs

/-! ### `vfs_stat` -/

/-- An object of a mounted volume, with what `vfs_stat` needs to look further from there. -/
inductive Place where
  | ext2 (d : Ext2Object)
  | mounted (fs : MountedFs) (dir : Stat)

namespace Place
variable (tail : ℕ → UInt8) (bgd : ℕ)

def mode : Place → ℕ
  | ext2 d => d.mode
  | mounted _ dir => dir.mode

def ino : Place → ℕ
  | ext2 d => d.ino
  | mounted _ dir => dir.ino

/-- `fs->readdir`. -/
def readdir (index : ℕ) : Place → Option (Except ℤ (List Char × Place))
  | ext2 d => (d.readdir tail bgd index).map fun r => r.map fun e => (Ext2Object.text e.1, ext2 e.2)
  | mounted fs dir => some ((fs.readdir dir index).map fun e => (e.1, mounted fs e.2))

/-- `strcmp` or `stricmp` finds the names equal. -/
def sameName (name filename : List Char) : Place → Bool
  | ext2 _ => name = filename
  | mounted fs _ => fs.sameName name filename

/-- The loop over the entries of a directory. -/
def searchFrom (p : Place) (filename : List Char) : (fuel i : ℕ) → Option (Except ℤ Place)
  | 0, _ => none
  | fuel + 1, i =>
    match p.readdir tail bgd (i % word32) with
    | none => none
    | some (.error e) => some (.error e)
    | some (.ok (name, st)) =>
      if p.sameName name filename then some (.ok st) else searchFrom p filename fuel (i + 1)

end Place

/-- `dir` and `f->st` in `vfs_stat`. -/
structure Lookup where
  dir : Place
  st : Place

/-- An entry was found: a directory becomes the current one, unless a file system is mounted on
it; a mount has the inode number of its mount point and its root directory. -/
def Lookup.found (mounts : List (ℕ × Place)) (s : Lookup) (st : Place) : Lookup :=
  if st.mode &&& sIfdir ≠ 0 then
    match mounts.find? fun m => m.1 = st.ino with
    | some m => ⟨m.2, st⟩
    | none => ⟨st, st⟩
  else ⟨s.dir, st⟩

variable (tail : ℕ → UInt8) (bgd : ℕ) (mounts : List (ℕ × Place))

/-- The outer loop of `vfs_stat`; every pass but the last uses up a slash. -/
def lookupPath (fuel : ℕ) :
    (passes : ℕ) → Lookup → (filename last : Option (List Char)) → Option (Except ℤ Lookup)
  | 0, s, _, _ => some (.ok s)
  | passes + 1, s, filename, last =>
    match filename with
    | none => some (.ok s)
    | some name =>
      if name = [] then some (.ok s)
      else
        match s.dir.searchFrom tail bgd name fuel 0 with
        | none => none
        | some (.error e) => some (.error e)
        | some (.ok st) =>
          let token := strtok none last '/'
          lookupPath fuel passes (s.found mounts st) token.1 token.2

/-- `vfs_stat` with the root file system `root`; `none` if a search has not ended. -/
def vfsLookup (fuel : ℕ) (root : Place) (path : List Char) : Option (Except ℤ Lookup) :=
  if path = [] then some (.error (-einval))
  else if path = ['/'] then some (.ok ⟨root, root⟩)
  else
    let token := strtok (some (stripped path)) none '/'
    lookupPath tail bgd mounts fuel (path.length + 1) ⟨root, root⟩ token.1 token.2

/-! ### Which searches end -/

/-- A search passes over an entry. -/
def Place.Continues (p : Place) (filename : List Char) (index : ℕ) : Prop :=
  ∃ name st, p.readdir tail bgd index = some (.ok (name, st)) ∧ p.sameName name filename = false

/-- The entry that a search finds. -/
def Place.Finds (p : Place) (filename : List Char) (st : Place) : Prop :=
  ∃ n, (∀ k < n, p.Continues tail bgd filename (k % word32)) ∧
    ∃ name, p.readdir tail bgd (n % word32) = some (.ok (name, st)) ∧ p.sameName name filename

/-- The records of a directory of the ext2 volume that a search passes over lead on; a search in
another file system ends. -/
def Place.SearchEnds (filename : List Char) : Place → Prop
  | .ext2 d => d.mode &&& 0x4000 ≠ 0 → d.MovesOn tail bgd filename
  | .mounted fs dir => ∃ n < word32, ¬ (Place.mounted fs dir).Continues tail bgd filename n

/-- Every search on the way of a path ends. -/
def SearchesEnd : Lookup → List (List Char) → Prop
  | _, [] => True
  | s, t :: ts => s.dir.SearchEnds tail bgd t ∧
      ∀ st, s.dir.Finds tail bgd t st → SearchesEnd (s.found mounts st) ts

/-! ### One search -/

namespace Place
variable {tail bgd} {p st : Place} {filename name : List Char} {fuel i n : ℕ} {r : Except ℤ Place}

theorem readdir_isSome (p : Place) (tail : ℕ → UInt8) (bgd index : ℕ) :
    ∃ r, p.readdir tail bgd index = some r := by
  cases p with
  | ext2 d =>
    obtain ⟨r, hr⟩ := Option.isSome_iff_exists.mp (d.readdir_isSome tail bgd index)
    exact ⟨_, by rw [readdir, hr]; rfl⟩
  | mounted fs dir => exact ⟨_, rfl⟩

/-- The entry that a search passes over has another name. -/
theorem Continues.not_same (h : p.Continues tail bgd filename n)
    (hread : p.readdir tail bgd n = some (.ok (name, st))) : ¬ p.sameName name filename := by
  obtain ⟨name', st', hread', hne⟩ := h
  rw [hread'] at hread
  cases hread
  simp [hne]

/-- A search looks at one entry more, and ends or goes on. -/
theorem searchFrom_succ (p : Place) (filename : List Char) (fuel i : ℕ) :
    (p.Continues tail bgd filename (i % word32) ∧
        p.searchFrom tail bgd filename (fuel + 1) i = p.searchFrom tail bgd filename fuel (i + 1)) ∨
      ¬ p.Continues tail bgd filename (i % word32) ∧
        ((∃ e, p.searchFrom tail bgd filename (fuel + 1) i = some (.error e) ∧
            p.readdir tail bgd (i % word32) = some (.error e)) ∨
          ∃ name st, p.searchFrom tail bgd filename (fuel + 1) i = some (.ok st) ∧
            p.readdir tail bgd (i % word32) = some (.ok (name, st)) ∧ p.sameName name filename) := by
  rw [searchFrom]
  obtain ⟨r, hr⟩ := p.readdir_isSome tail bgd (i % word32)
  cases r with
  | error e =>
    right
    refine ⟨?_, .inl ⟨e, by rw [hr], hr⟩⟩
    rintro ⟨name, st, hread, -⟩
    rw [hr] at hread
    cases hread
  | ok entry =>
    obtain ⟨name, st⟩ := entry
    cases hsame : p.sameName name filename with
    | true =>
      right
      refine ⟨fun hgo => hgo.not_same hr hsame, .inr ⟨name, st, ?_, hr, hsame⟩⟩
      rw [hr]
      dsimp only
      rw [if_pos hsame]
    | false =>
      left
      refine ⟨⟨name, st, hr, hsame⟩, ?_⟩
      rw [hr]
      dsimp only
      rw [if_neg (by simp [hsame])]

theorem searchFrom_isSome : (p.searchFrom tail bgd filename fuel i).isSome ↔
    ∃ k < fuel, ¬ p.Continues tail bgd filename ((i + k) % word32) := by
  induction fuel generalizing i with
  | zero => simp [searchFrom]
  | succ fuel ih =>
    rcases searchFrom_succ p filename fuel i with ⟨hgo, hnext⟩ | ⟨hstop, hend⟩
    · rw [hnext, ih]
      constructor
      · rintro ⟨k, hk, hstop⟩
        refine ⟨k + 1, Nat.succ_lt_succ hk, ?_⟩
        rwa [Nat.add_comm k, ← Nat.add_assoc]
      · rintro ⟨k, hk, hstop⟩
        cases k with
        | zero => exact absurd hgo hstop
        | succ k =>
          rw [Nat.add_comm k, ← Nat.add_assoc] at hstop
          exact ⟨k, Nat.lt_of_succ_lt_succ hk, hstop⟩
    · refine iff_of_true ?_ ⟨0, Nat.succ_pos fuel, hstop⟩
      rcases hend with ⟨e, he, -⟩ | ⟨name, st, hst, -⟩
      · rw [he]
        rfl
      · rw [hst]
        rfl

theorem searchFrom_mono (h : p.searchFrom tail bgd filename fuel i = some r) {fuel' : ℕ}
    (hle : fuel ≤ fuel') : p.searchFrom tail bgd filename fuel' i = some r := by
  induction fuel generalizing i fuel' with
  | zero => cases h
  | succ fuel ih =>
    obtain ⟨fuel', rfl⟩ : ∃ n, fuel' = n + 1 := ⟨fuel' - 1, by omega⟩
    rw [searchFrom] at h ⊢
    obtain ⟨r', hr⟩ := p.readdir_isSome tail bgd (i % word32)
    rw [hr] at h ⊢
    cases r' with
    | error e => exact h
    | ok entry =>
      dsimp only at h ⊢
      split_ifs at h ⊢
      · exact h
      · exact ih h (Nat.le_of_succ_le_succ hle)

theorem searchFrom_eq_ok : p.searchFrom tail bgd filename fuel i = some (.ok st) ↔
    ∃ n < fuel, (∀ k < n, p.Continues tail bgd filename ((i + k) % word32)) ∧
      ∃ name, p.readdir tail bgd ((i + n) % word32) = some (.ok (name, st)) ∧
        p.sameName name filename := by
  induction fuel generalizing i with
  | zero => simp [searchFrom]
  | succ fuel ih =>
    rcases searchFrom_succ p filename fuel i with ⟨hgo, hnext⟩ | ⟨hstop, hend⟩
    · rw [hnext, ih]
      constructor
      · rintro ⟨n, hn, hbefore, hfound⟩
        refine ⟨n + 1, Nat.succ_lt_succ hn, fun k hk => ?_, ?_⟩
        · cases k with
          | zero => exact hgo
          | succ k =>
            rw [Nat.add_comm k, ← Nat.add_assoc]
            exact hbefore k (Nat.lt_of_succ_lt_succ hk)
        · rwa [Nat.add_comm n, ← Nat.add_assoc]
      · rintro ⟨n, hn, hbefore, hfound⟩
        cases n with
        | zero =>
          obtain ⟨name, hread, hsame⟩ := hfound
          exact absurd hsame (hgo.not_same hread)
        | succ n =>
          refine ⟨n, Nat.lt_of_succ_lt_succ hn, fun k hk => ?_, ?_⟩
          · rw [Nat.add_assoc, Nat.add_comm 1]
            exact hbefore (k + 1) (Nat.succ_lt_succ hk)
          · rwa [Nat.add_assoc, Nat.add_comm 1]
    · -- the search ends with this entry
      have hfirst : ∀ n, (∀ k < n, p.Continues tail bgd filename ((i + k) % word32)) → n = 0 := by
        intro n hbefore
        by_contra hne
        exact hstop (hbefore 0 (Nat.pos_of_ne_zero hne))
      rcases hend with ⟨e, he, hread⟩ | ⟨name, st', hst, hread, hsame⟩
      · rw [he]
        refine iff_of_false (fun h => by cases h) ?_
        rintro ⟨n, -, hbefore, name, hread', -⟩
        rw [hfirst n hbefore, Nat.add_zero, hread] at hread'
        cases hread'
      · rw [hst]
        constructor
        · rintro ⟨⟩
          exact ⟨0, Nat.succ_pos fuel, fun k hk => absurd hk (Nat.not_lt_zero k), name, hread, hsame⟩
        · rintro ⟨n, -, hbefore, name', hread', -⟩
          rw [hfirst n hbefore, Nat.add_zero, hread] at hread'
          cases hread'
          rfl

theorem finds_iff : (∃ fuel, p.searchFrom tail bgd filename fuel 0 = some (.ok st)) ↔
    p.Finds tail bgd filename st := by
  simp only [searchFrom_eq_ok, Nat.zero_add, Finds]
  constructor
  · rintro ⟨fuel, n, -, h⟩
    exact ⟨n, h⟩
  · rintro ⟨n, h⟩
    exact ⟨n + 1, n, Nat.lt_succ_self n, h⟩

/-- A search ends if some entry is not passed over. -/
theorem search_ends : (∃ fuel, (p.searchFrom tail bgd filename fuel 0).isSome) ↔
    ∃ n < word32, ¬ p.Continues tail bgd filename n := by
  simp only [searchFrom_isSome, Nat.zero_add]
  constructor
  · rintro ⟨fuel, k, -, hstop⟩
    exact ⟨k % word32, Nat.mod_lt k (by decide), hstop⟩
  · rintro ⟨n, hn, hstop⟩
    exact ⟨n + 1, n, Nat.lt_succ_self n, by rwa [Nat.mod_eq_of_lt hn]⟩

/-- A search in a directory of the ext2 volume passes over an entry exactly if the walk comes to
its record and passes over that. -/
theorem continues_ext2 {d : Ext2Object} (hdir : d.mode &&& 0x4000 ≠ 0) (n : ℕ) :
    (ext2 d).Continues tail bgd filename n ↔ Goes (d.next tail) (d.Live tail) 0 n ∧
      d.Passes tail bgd filename ((d.next tail)^[n] 0) := by
  have hread : (ext2 d).readdir tail bgd n = some ((d.walkTo tail bgd n 0).map
      fun e => (Ext2Object.text e.1, ext2 e.2)) := by
    rw [readdir, Ext2Object.readdir_eq hdir]
    rfl
  by_cases hgoes : Goes (d.next tail) (d.Live tail) 0 n
  · rw [and_iff_right hgoes, Continues, hread, Ext2Object.walkTo_of_goes hgoes, Ext2Object.Passes,
      and_iff_right (hgoes n le_rfl)]
    cases d.entryResult tail bgd (d.recordAt tail ((d.next tail)^[n] 0)) with
    | error e => simp [Except.map]
    | ok entry =>
      obtain ⟨name, st⟩ := entry
      simp [Except.map, sameName]
  · refine iff_of_false ?_ fun h => hgoes h.1
    rintro ⟨name, st, h, -⟩
    rw [hread, Ext2Object.walkTo_of_not_goes hgoes] at h
    cases h

theorem searchEnds_iff : p.SearchEnds tail bgd filename ↔
    ∃ n < word32, ¬ p.Continues tail bgd filename n := by
  cases p with
  | mounted fs dir => rfl
  | ext2 d =>
    rw [SearchEnds]
    by_cases hdir : d.mode &&& 0x4000 = 0
    · -- what is no directory gives an error
      refine iff_of_true (fun h => absurd hdir h) ⟨0, by decide, ?_⟩
      rintro ⟨name, st, h, -⟩
      rw [readdir, Ext2Object.readdir, if_pos hdir] at h
      cases h
    · rw [imp_iff_right hdir, Ext2Object.movesOn_iff]
      simp only [continues_ext2 hdir]
      constructor
      · intro hend
        obtain ⟨n, hn, hstop, -⟩ := ends_lt_bound Ext2Object.position_lt hend
        exact ⟨n, hn, fun h => hstop h.2⟩
      · rintro ⟨n, -, hstop⟩
        by_contra hgo
        simp only [not_exists, not_not] at hgo
        exact hstop ⟨fun k _ => (hgo k).1, hgo n⟩

end Place

/-! ### The way of a path -/

/-- The outer loop over a list of tokens. -/
def lookupTokens (tail : ℕ → UInt8) (bgd : ℕ) (mounts : List (ℕ × Place)) (fuel : ℕ) :
    Lookup → List (List Char) → Option (Except ℤ Lookup)
  | s, [] => some (.ok s)
  | s, t :: ts =>
    if t = [] then some (.ok s)
    else
      match s.dir.searchFrom tail bgd t fuel 0 with
      | none => none
      | some (.error e) => some (.error e)
      | some (.ok st) => lookupTokens tail bgd mounts fuel (s.found mounts st) ts

variable {tail bgd mounts} {fuel : ℕ}

theorem lookupPath_eq {passes : ℕ} {s : Lookup} {t : List Char} {last : Option (List Char)}
    (h : (remaining last).length < passes) :
    lookupPath tail bgd mounts fuel passes s (some t) last =
      lookupTokens tail bgd mounts fuel s (t :: remaining last) := by
  induction passes generalizing s t last with
  | zero => omega
  | succ passes ih =>
    simp only [lookupPath, lookupTokens]
    split_ifs
    · rfl
    rcases s.dir.searchFrom tail bgd t fuel 0 with _ | e | st
    · rfl
    · rfl
    cases last with
    | none => cases passes <;> rfl
    | some rest =>
      obtain ⟨t', ht', hsplit⟩ := strtok_some rest none
      have hrest : strtok none (some rest) '/' = strtok (some rest) none '/' := rfl
      rw [remaining_some, hsplit, List.length_cons] at h
      rw [remaining_some, hsplit]
      dsimp only
      rw [hrest, ht']
      exact ih (by omega)

/-- Only the tokens in front of the first empty one count. -/
theorem lookupTokens_takeWhile (s : Lookup) (ts : List (List Char)) :
    lookupTokens tail bgd mounts fuel s ts =
      lookupTokens tail bgd mounts fuel s (ts.takeWhile (· ≠ [])) := by
  induction ts generalizing s with
  | nil => rfl
  | cons t ts ih =>
    rcases eq_or_ne t [] with rfl | ht
    · rfl
    · rw [List.takeWhile_cons_of_pos (by simpa using ht), lookupTokens, lookupTokens, if_neg ht,
        if_neg ht]
      simp only [ih]

/-- `vfs_stat` looks up the tokens of the path. -/
theorem vfsLookup_eq {root : Place} {path : List Char} (hpath : path ≠ []) (hroot : path ≠ ['/']) :
    vfsLookup tail bgd mounts fuel root path =
      lookupTokens tail bgd mounts fuel ⟨root, root⟩ (tokens path) := by
  obtain ⟨t, ht, hsplit, hlen⟩ := strtok_stripped path
  rw [vfsLookup, if_neg hpath, if_neg hroot]
  dsimp only
  rw [ht, lookupPath_eq (by omega), ← hsplit, lookupTokens_takeWhile, tokens]

theorem lookupTokens_mono {s : Lookup} {ts : List (List Char)} {fuel' : ℕ} (hle : fuel ≤ fuel')
    (h : (lookupTokens tail bgd mounts fuel s ts).isSome) :
    (lookupTokens tail bgd mounts fuel' s ts).isSome := by
  induction ts generalizing s with
  | nil => rfl
  | cons t ts ih =>
    rw [lookupTokens] at h ⊢
    split_ifs at h ⊢
    · rfl
    · cases hsearch : s.dir.searchFrom tail bgd t fuel 0 with
      | none =>
        rw [hsearch] at h
        cases h
      | some r =>
        rw [Place.searchFrom_mono hsearch hle]
        rw [hsearch] at h
        cases r with
        | error e => rfl
        | ok st => exact ih h

theorem lookupTokens_ends {s : Lookup} {ts : List (List Char)} (hne : ∀ t ∈ ts, t ≠ []) :
    (∃ fuel, (lookupTokens tail bgd mounts fuel s ts).isSome) ↔ SearchesEnd tail bgd mounts s ts := by
  induction ts generalizing s with
  | nil => exact iff_of_true ⟨0, rfl⟩ trivial
  | cons t ts ih =>
    have ih' : ∀ {s : Lookup}, (∃ fuel, (lookupTokens tail bgd mounts fuel s ts).isSome) ↔
        SearchesEnd tail bgd mounts s ts := ih fun t ht => hne t (List.mem_cons_of_mem _ ht)
    simp only [SearchesEnd, ← ih', lookupTokens, if_neg (hne t List.mem_cons_self),
      Place.searchEnds_iff, ← Place.search_ends, ← Place.finds_iff]
    constructor
    · rintro ⟨fuel, hsome⟩
      cases hsearch : s.dir.searchFrom tail bgd t fuel 0 with
      | none =>
        rw [hsearch] at hsome
        cases hsome
      | some r =>
        refine ⟨⟨fuel, by rw [hsearch]; rfl⟩, ?_⟩
        rintro st ⟨fuel', hst⟩
        have hsame := Place.searchFrom_mono hst (le_max_left fuel' fuel)
        rw [Place.searchFrom_mono hsearch (le_max_right fuel' fuel)] at hsame
        obtain rfl := Option.some.inj hsame
        rw [hsearch] at hsome
        exact ⟨fuel, hsome⟩
    · rintro ⟨⟨fuel, hsearch⟩, hrest⟩
      obtain ⟨r, hr⟩ := Option.isSome_iff_exists.mp hsearch
      cases r with
      | error e => exact ⟨fuel, by rw [hr]; rfl⟩
      | ok st =>
        obtain ⟨fuel', hsome⟩ := hrest st ⟨fuel, hr⟩
        refine ⟨max fuel fuel', ?_⟩
        rw [Place.searchFrom_mono hr (le_max_left fuel fuel')]
        exact lookupTokens_mono (le_max_right fuel fuel') hsome

theorem vfsLookup_ends (root : Place) (path : List Char) :
    (∃ fuel, (vfsLookup tail bgd mounts fuel root path).isSome) ↔
      SearchesEnd tail bgd mounts ⟨root, root⟩ (tokens path) := by
  by_cases hpath : path = []
  · rw [hpath]
    exact iff_of_true ⟨0, rfl⟩ trivial
  by_cases hroot : path = ['/']
  · rw [hroot]
    exact iff_of_true ⟨0, rfl⟩ trivial
  simp only [vfsLookup_eq hpath hroot]
  exact lookupTokens_ends fun t ht => mem_tokens ht

/-- `vfs_stat` on an ext2 root file system ends exactly if each search on the way of the path does:
in a directory of an ext2 volume, if the records that are passed over have a length and the walk
stays below 4 GiB. -/
theorem vfs_stat_ends_iff (tail : ℕ → UInt8) (bgd : ℕ) (mounts : List (ℕ × Place))
    (root : Ext2Object) (path : List Char) :
    (∃ fuel, (vfsLookup tail bgd mounts fuel (.ext2 root) path).isSome) ↔
      SearchesEnd tail bgd mounts ⟨.ext2 root, .ext2 root⟩ (tokens path) :=
  vfsLookup_ends _ _

/-- A volume on which every block begins with a record of a file `a` that has no length. -/
def stuckImage : Ext2Image where
  driver := ⟨1024, fun _ i => if i = 0 then 2 else if i = 6 then 1 else if i = 8 then 97 else 0,
    fun _ _ => false, sector1024_pos⟩
  startLba := 0
  log2BlockSize := 0
  log2_le := smallestBlock_le
  sector_dvd := ⟨1, rfl⟩
  inodesPerGroup := 16
  perGroup_pos := inodeExample.perGroup_pos

/-- Its root directory, of one block. -/
def stuckRoot : Ext2Object where
  image := stuckImage
  ino := 2
  inode := [0, 0x40, 0, 0, 0, 4] ++ List.replicate 34 0 ++ [5]

/-- The record is passed over, and comes again. -/
theorem stuckRoot_not_movesOn : ¬ stuckRoot.MovesOn (fun _ => 0) 0 ['b'] := by
  intro h
  have hrecord : stuckRoot.recordAt (fun _ => 0) 0 = ⟨2, 0, 1, [97]⟩ := by decide +kernel
  have hinode : (stuckRoot.image.readInode (fun _ => 0) 0 2).1 = 0 := by decide +kernel
  have hentry : stuckRoot.entryResult (fun _ => 0) 0 ⟨2, 0, 1, [97]⟩ =
      .ok ([97], ⟨stuckRoot.image, 2, (stuckRoot.image.readInode (fun _ => 0) 0 2).2⟩) := by
    rw [Ext2Object.entryResult, if_pos hinode]
    rfl
  have hpasses : stuckRoot.Passes (fun _ => 0) 0 ['b'] 0 :=
    ⟨by decide +kernel, [97], _, hrecord ▸ hentry, by decide⟩
  have hlength := (h 0 (goes_zero.mpr hpasses)).1
  rw [Function.iterate_zero_apply, hrecord] at hlength
  exact hlength rfl

/-- The lookup of `/b` there does not end. -/
theorem vfs_stat_ends_wrong : ¬ ∀ (tail : ℕ → UInt8) (bgd : ℕ) (mounts : List (ℕ × Place))
    (root : Ext2Object) (path : List Char),
    ∃ fuel, (vfsLookup tail bgd mounts fuel (.ext2 root) path).isSome := by
  intro h
  have hends := (vfsLookup_ends _ _).mp (h (fun _ => 0) 0 [] stuckRoot ['/', 'b'])
  have htokens : tokens ['/', 'b'] = [['b']] := by decide
  rw [htokens] at hends
  exact stuckRoot_not_movesOn (hends.1 (by decide +kernel))

end Vfs

end DosKernel
