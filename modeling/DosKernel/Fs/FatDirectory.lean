import DosKernel.Fs.Ext2Inodes
import DosKernel.Fs.FatInit
import DosKernel.Fs.FatNames
import DosKernel.Fs.FatTable
import DosKernel.Fs.Paths

/-! The directories of a FAT volume. `fat_readdir` scans the sectors of the root directory and the
clusters of a subdirectory in two loops. The first one passes over records that are not used or
have the volume bit, the second one leaves a cluster at a record that is not used; neither knows
deleted records. -/

namespace DosKernel

open Lib

/-- `fat_entry`, without its times. -/
structure FatEntry where
  name : List UInt8
  ext : List UInt8
  attributes : ℕ
  cluster : ℕ
  size : ℕ
  deriving DecidableEq

/-- `struct stat`, as `fat_stat_fill` and `fat_readdir` fill it in from an entry. -/
structure FatStat where
  readOnly : Bool
  directory : Bool
  device : Bool
  archive : Bool
  size : ℕ
  blocks : ℕ
  ino : ℕ
  entry : FatEntry
  deriving DecidableEq

namespace FatEntry

def entryAt (b : ℕ → UInt8) (o : ℕ) : FatEntry where
  name := slice b o 8
  ext := slice b (o + 8) 3
  attributes := (b (o + 11)).toNat
  cluster := halfword b (o + 26)
  size := Ext2Volume.word b (o + 28)

variable (e : FatEntry)

def hasBit (bit : ℕ) : Bool := e.attributes &&& bit ≠ 0

def volume : Bool := e.hasBit 0x08

def directory : Bool := e.hasBit 0x10

/-- `fat_stat_fill`, and the number that `fat_readdir` gives. -/
def statFill : FatStat where
  readOnly := e.hasBit 0x01
  directory := e.directory
  device := e.hasBit 0x40
  archive := e.hasBit 0x20
  size := e.size
  blocks := e.size / 512 + (if e.size % 512 = 0 then 0 else 1)
  ino := e.cluster
  entry := e

/-- The first byte: 0 in a record that was never used, and 0xE5 in a deleted one. -/
def firstByte : UInt8 := e.name.getD 0 0

def used : Bool := e.firstByte ≠ 0

/-- The record is that of a file or a directory. -/
def inUse : Bool := e.used && e.firstByte ≠ 0xe5 && !e.volume

/-- The two fields of the entry, and the memory behind them. -/
def chars (tail : ℕ → UInt8) : CString := fun i => (e.name ++ e.ext).getD i (tail i)

/-- `strncpy(name, dos83toStr(entry->name, entry->ext), 13)`; `ret` is what the static buffer
held. -/
def storeName (tail : ℕ → UInt8) (ret name : CString) : CString :=
  name.strncpy (CString.dos83toStr ret (e.chars tail) fun i => e.chars tail (8 + i)) 13

end FatEntry

/-- A directory: the file that it is, with its own entry. -/
structure FatDirectory extends FatFile where
  entry : FatEntry
  cluster_eq : entry.cluster = cluster
  entry_size : entry.size = size

namespace FatDirectory
variable (d : FatDirectory) (tail : ℕ → UInt8)

/-- The size of an entry as it is returned; `none` if its loop has not ended. -/
def actualSize (fuel : ℕ) (e : FatEntry) : Option ℕ :=
  if e.directory then
    (({ d.toFatFile with cluster := e.cluster } : FatFile).fatCalculateActualSize fuel).value
  else some e.size

def found (ret name : CString) (fuel : ℕ) (e : FatEntry) : Option (Except ℤ (CString × FatStat)) :=
  (d.actualSize fuel e).map fun size =>
    .ok (e.storeName tail ret name, FatEntry.statFill { e with size := size })

/-- `driver->io_buffer` at a record of the root directory: a sector is read when its first record
comes. -/
def rootBuffer (j dirSector : ℕ) (io : ℕ → UInt8) : Option (ℕ → UInt8) :=
  if j % d.bytesPerSector = 0 then
    (d.driver.readSector (dirSector % word32) 0).map fun s => d.driver.buffer tail d.driver.sectorSize [s]
  else some io

/-- The loop over the records of the root directory. -/
def rootFrom (index : ℕ) :
    (passes j i dirSector : ℕ) → (io : ℕ → UInt8) → Except ℤ FatEntry
  | 0, _, _, _, _ => .error (-Vfs.enoent)
  | passes + 1, j, i, dirSector, io =>
    match d.rootBuffer tail j dirSector io with
    | none => .error (-eio)
    | some io =>
      let dirSector := if j % d.bytesPerSector = 0 then dirSector + 1 else dirSector
      let entry := FatEntry.entryAt io (j % d.bytesPerSector)
      if io (j % d.bytesPerSector) = 0 then rootFrom index passes (j + 32) i dirSector io
      else if entry.volume then rootFrom index passes (j + 32) i dirSector io
      else if i = index then .ok entry
      else rootFrom index passes (j + 32) (i + 1) dirSector io

/-- The loop over the records of a block of a subdirectory: the count of records, or the entry. -/
def blockFrom (b : ℕ → UInt8) (index : ℕ) : (passes offset j : ℕ) → ℕ ⊕ FatEntry
  | 0, _, j => .inl j
  | passes + 1, offset, j =>
    if b offset = 0 then .inl j
    else if j = index then .inr (FatEntry.entryAt b offset)
    else blockFrom b index passes (offset + 32) (j + 1)

/-- The loop over the blocks; `none` if it has not ended. -/
def subFrom (index : ℕ) : (fuel i j : ℕ) → Option (Except ℤ FatEntry)
  | 0, _, _ => none
  | fuel + 1, i, j =>
    let r := d.read tail d.bytesPerSector i
    if r.1 ≤ 0 then some (.error (-Vfs.enoent))
    else
      match blockFrom (fun o => r.2.getD o 0) index ((d.bytesPerSector + 31) / 32) 0 j with
      | .inr e => some (.ok e)
      | .inl j => subFrom index fuel ((i + d.bytesPerSector) % word32) j

/-- `fat_readdir`, with the name buffer of the caller, and what the static buffer of `dos83toStr`
and `driver->io_buffer` held. -/
def readdir (ret io : CString) (fuel index : ℕ) (name : CString) :
    Option (Except ℤ (CString × FatStat)) :=
  if d.entry.directory = false then some (.error (-enotdir))
  else if d.cluster = 0 then
    if index = 0 then some (.ok (name.strncpy CString.dot 1, d.entry.statFill))
    else if index = 1 then some (.ok (name.strncpy CString.dotDot 2, d.entry.statFill))
    else
      match d.rootFrom tail (index - 2) ((d.size + 31) / 32) 0 0 d.rootdirSector io with
      | .error e => some (.error e)
      | .ok e => d.found tail ret name fuel e
  else
    (d.subFrom tail index fuel 0 0).bind fun r => match r with
      | .error e => some (.error e)
      | .ok e => d.found tail ret name fuel e

/-! ### Directories on the drive -/

/-- Byte `pos` of the root directory. -/
def rootByte (pos : ℕ) : UInt8 :=
  d.driver.sector (d.rootdirSector + pos / d.bytesPerSector) (pos % d.bytesPerSector)

/-- Byte `pos` of the directory. -/
def dirByte : ℕ → UInt8 := if d.cluster = 0 then d.rootByte else d.byteAt

/-- The entry of a directory itself: a dot, or two of them. -/
structure IsDots (e : FatEntry) (l : List UInt8) : Prop where
  name : CString.Padded (fun i => e.name.getD i 0) 8 l
  name_length : e.name.length = 8
  ext : CString.Padded (fun i => e.ext.getD i 0) 3 []
  ext_length : e.ext.length = 3
  inUse : e.inUse

/-- The directory holds the records, on a readable drive with 32-bit sector numbers; the records
that were never used come last. -/
structure Stores (slots : List FatEntry) : Prop where
  directory : d.entry.directory
  readable : d.driver.Readable
  sectorSize : d.driver.sectorSize = d.bytesPerSector
  record_dvd : 32 ∣ d.bytesPerSector
  size_eq : d.size = 32 * slots.length
  records : ∀ k (h : k < slots.length), FatEntry.entryAt d.dirByte (32 * k) = slots[k]
  last : slots.Pairwise fun a b => b.used → a.used
  root : d.cluster = 0 → d.size = d.rootdirEntries * 32 ∧
    d.rootdirSector + d.size / d.bytesPerSector ≤ word32
  sub : d.cluster ≠ 0 → d.Supported ∧ d.bytesPerSector ∣ d.size ∧
    ∃ dot dotDot rest, slots = dot :: dotDot :: rest ∧ IsDots dot [46] ∧ IsDots dotDot [46, 46]

/-- What a caller is to find in the directory: itself, its parent, and what is in use. -/
def listing (slots : List FatEntry) : List FatEntry :=
  (if d.cluster = 0 then [d.entry, d.entry] else []) ++ slots.filter FatEntry.inUse

/-- The name in the buffer: the directory and its parent have dots for a name. -/
def NameStored (ret name : CString) (k : ℕ) (e : FatEntry) (stored : CString) : Prop :=
  if k = 0 then stored.IsString [46]
  else if k = 1 then stored.IsString [46, 46]
  else stored = e.storeName tail ret name

/-- `fat_readdir` gives the entries one after the other, and then an error. -/
def Lists (es : List FatEntry) : Prop := ∀ (ret io name : CString) (k : ℕ), match es[k]? with
  | some e => ∃ least, ∀ fuel ≥ least, ∃ size stored, d.actualSize fuel e = some size ∧
      d.readdir tail ret io fuel k name = some (.ok (stored, FatEntry.statFill { e with size := size })) ∧
      NameStored tail ret name k e stored
  | none => ∃ least, ∀ fuel ≥ least,
      d.readdir tail ret io fuel k name = some (.error (-Vfs.enoent))

/-! ### The records of a directory -/

section Records
variable {b b' : ℕ → UInt8} {o o' : ℕ}

theorem entryAt_eq (h : ∀ j < 32, b (o + j) = b' (o' + j)) :
    FatEntry.entryAt b o = FatEntry.entryAt b' o' := by
  have hname : slice b o 8 = slice b' o' 8 := slice_congr fun j hj => h j (by omega)
  have hext : slice b (o + 8) 3 = slice b' (o' + 8) 3 := slice_congr fun j hj => by
    rw [Nat.add_assoc, Nat.add_assoc]
    exact h _ (by omega)
  have hcluster : halfword b (o + 26) = halfword b' (o' + 26) := by
    rw [halfword, halfword, Nat.add_assoc, Nat.add_assoc, h 26 (by omega), h (26 + 1) (by omega)]
  have hsize : Ext2Volume.word b (o + 28) = Ext2Volume.word b' (o' + 28) :=
    Ext2Inodes.word_congr fun j hj => by
      rw [Nat.add_assoc, Nat.add_assoc]
      exact h _ (by omega)
  rw [FatEntry.entryAt, FatEntry.entryAt, hname, hext, h 11 (by omega), hcluster, hsize]

theorem firstByte_entryAt (b : ℕ → UInt8) (o : ℕ) : (FatEntry.entryAt b o).firstByte = b o := by
  have h : (slice b o 8)[0]? = some (b (o + 0)) := slice_getElem? b (by omega)
  rw [FatEntry.firstByte, List.getD_eq_getElem?_getD]
  exact congrArg (Option.getD · 0) h

theorem used_entryAt : (FatEntry.entryAt b o).used = true ↔ b o ≠ 0 := by
  rw [FatEntry.used, firstByte_entryAt]
  simp

end Records

theorem takeWhile_used {l : List FatEntry} (h : l.Pairwise fun a b => b.used → a.used) :
    l.takeWhile FatEntry.used = l.filter FatEntry.used := by
  induction l with
  | nil => rfl
  | cons e l ih =>
    obtain ⟨hfirst, hrest⟩ := List.pairwise_cons.mp h
    cases he : e.used with
    | true => rw [List.takeWhile_cons_of_pos he, List.filter_cons_of_pos he, ih hrest]
    | false =>
      have hnone : ∀ a ∈ l, ¬ a.used := fun a ha hused => by simpa [he] using hfirst a ha hused
      rw [List.takeWhile_cons_of_neg (by simp [he]), List.filter_cons_of_neg (by simp [he]),
        List.filter_eq_nil_iff.mpr hnone]

/-- What a loop over records passes on, of those that it is asked for. -/
def pick (es : List FatEntry) (index : ℕ) : Except ℤ FatEntry :=
  match es[index]? with
  | some e => .ok e
  | none => .error (-Vfs.enoent)

variable {d : FatDirectory} {tail : ℕ → UInt8} {slots : List FatEntry} {index : ℕ}

/-- A record that the loop over the root directory counts. -/
def counted (e : FatEntry) : Bool := e.used && !e.volume

theorem pick_filter_succ (p : FatEntry → Bool) (e : FatEntry) (es : List FatEntry) (n : ℕ) :
    pick ((e :: es).filter p) n =
      if p e then if n = 0 then .ok e else pick (es.filter p) (n - 1) else pick (es.filter p) n := by
  cases hp : p e with
  | false =>
    rw [List.filter_cons_of_neg (by simp [hp])]
    rfl
  | true =>
    rw [List.filter_cons_of_pos hp]
    cases n <;> rfl

/-- Where a byte of a record lies when a sector has `q` records. -/
theorem record_place {q t j : ℕ} (hj : j < 32) :
    (32 * t + j) / (32 * q) = t / q ∧ (32 * t + j) % (32 * q) = 32 * (t % q) + j := by
  have hdiv : (32 * t + j) / 32 = t := by omega
  have hmod : (32 * t + j) % 32 = j := by omega
  rw [← Nat.div_div_eq_div_mul, Nat.mod_mul, hdiv, hmod, Nat.add_comm]
  exact ⟨rfl, rfl⟩

theorem next_record {q : ℕ} (t : ℕ) : (t + 1) / q = t / q + if (t + 1) % q = 0 then 1 else 0 := by
  rw [Nat.succ_div]
  simp only [Nat.dvd_iff_mod_eq_zero]

/-- The sector of a record is in the buffer when the loop comes to it. -/
theorem rootBuffer_eq {q t dirSector : ℕ} {io : ℕ → UInt8} (tail : ℕ → UInt8) (hq : d.bytesPerSector = 32 * q)
    (hread : d.driver.Readable) (hsector : d.driver.sectorSize = d.bytesPerSector)
    (hdrive : d.rootdirSector + t / q < word32)
    (hnext : t % q = 0 → dirSector = d.rootdirSector + t / q)
    (hheld : t % q ≠ 0 → dirSector = d.rootdirSector + t / q + 1 ∧
      ∀ j < 32 * q, io j = d.driver.sector (d.rootdirSector + t / q) j) :
    ∃ io', d.rootBuffer tail (32 * t) dirSector io = some io' ∧
      (if 32 * t % d.bytesPerSector = 0 then dirSector + 1 else dirSector) =
        d.rootdirSector + t / q + 1 ∧
      ∀ j < 32 * q, io' j = d.driver.sector (d.rootdirSector + t / q) j := by
  rw [rootBuffer, hq, Nat.mul_mod_mul_left]
  by_cases hzero : t % q = 0
  · have hlba := hnext hzero
    rw [if_pos (by omega), if_pos (by omega), hlba, Nat.mod_eq_of_lt hdrive, hread.readSector]
    refine ⟨_, rfl, rfl, fun j hj => ?_⟩
    rw [← hq, ← hsector] at hj
    change d.driver.buffer tail d.driver.sectorSize [_] j = _
    rw [IoDriver.buffer, if_pos hj, Nat.div_eq_of_lt hj, Nat.mod_eq_of_lt hj]
    rfl
  · rw [if_neg (by omega), if_neg (by omega)]
    exact ⟨io, rfl, hheld hzero⟩

theorem rootFrom_eq {q t n i dirSector : ℕ} {io : ℕ → UInt8} (hq : d.bytesPerSector = 32 * q)
    (hread : d.driver.Readable) (hsector : d.driver.sectorSize = d.bytesPerSector)
    (hdrive : ∀ k < slots.length, d.rootdirSector + k / q < word32)
    (hslots : ∀ k (h : k < slots.length), FatEntry.entryAt d.rootByte (32 * k) = slots[k])
    (hn : t + n = slots.length) (hi : i ≤ index)
    (hnext : t % q = 0 → dirSector = d.rootdirSector + t / q)
    (hheld : t % q ≠ 0 → dirSector = d.rootdirSector + t / q + 1 ∧
      ∀ j < 32 * q, io j = d.driver.sector (d.rootdirSector + t / q) j) :
    d.rootFrom tail index n (32 * t) i dirSector io =
      pick ((slots.drop t).filter counted) (index - i) := by
  induction n generalizing t i dirSector io with
  | zero =>
    rw [List.drop_eq_nil_of_le (by omega)]
    rfl
  | succ n ih =>
    have ht : t < slots.length := by omega
    obtain ⟨io', hbuffer, hsucc, hio⟩ :=
      rootBuffer_eq tail hq hread hsector (hdrive t ht) hnext hheld
    have hentry : FatEntry.entryAt io' (32 * (t % q)) = slots[t] := by
      rw [← hslots t ht]
      refine entryAt_eq fun j hj => ?_
      have hlt : t % q < q := Nat.mod_lt t (by have := d.bytes_pos; omega)
      obtain ⟨hdiv, hmod⟩ := record_place (q := q) (t := t) hj
      rw [hio _ (by omega), rootByte, hq, hdiv, hmod]
    have hused : io' (32 * (t % q)) = 0 ↔ slots[t].used = false := by
      rw [← hentry, ← Bool.not_eq_true, used_entryAt, not_not]
    have hrest : ∀ i ≤ index, d.rootFrom tail index n (32 * t + 32) i (d.rootdirSector + t / q + 1) io' =
        pick ((slots.drop (t + 1)).filter counted) (index - i) := fun i hi => by
      have hdiv := next_record (q := q) t
      refine ih (t := t + 1) (by omega) hi (fun hzero => ?_) fun hne => ?_
      · rw [if_pos hzero] at hdiv
        omega
      · rw [if_neg hne, Nat.add_zero] at hdiv
        rw [hdiv]
        exact ⟨rfl, hio⟩
    rw [rootFrom, hbuffer]
    dsimp only
    rw [hsucc, hq, Nat.mul_mod_mul_left, hentry, List.drop_eq_getElem_cons ht, pick_filter_succ, counted]
    cases hone : slots[t].used with
    | false =>
      rw [if_pos (hused.mpr hone)]
      exact hrest i hi
    | true =>
      rw [if_neg (by simp [hused, hone])]
      cases hvolume : slots[t].volume with
      | true => exact hrest i hi
      | false =>
        simp only [Bool.false_eq_true, if_false, Bool.not_false, Bool.and_true, if_true]
        split_ifs with hindex hlast hlast
        · rfl
        · omega
        · omega
        · rw [hrest (i + 1) (by omega), Nat.sub_sub]

/-- The records of a block up to the first one that is not used. -/
theorem blockFrom_eq {b : ℕ → UInt8} {bs : List FatEntry} {o j : ℕ}
    (h : ∀ k (hk : k < bs.length), FatEntry.entryAt b (o + 32 * k) = bs[k]) (hj : j ≤ index) :
    blockFrom b index bs.length o j = match (bs.takeWhile FatEntry.used)[index - j]? with
      | some e => .inr e
      | none => .inl (j + (bs.takeWhile FatEntry.used).length) := by
  induction bs generalizing o j with
  | nil => rfl
  | cons e bs ih =>
    have hfirst : FatEntry.entryAt b o = e := h 0 (Nat.succ_pos _)
    have hused : b o = 0 ↔ e.used = false := by
      rw [← hfirst, ← Bool.not_eq_true, used_entryAt, not_not]
    rw [List.length_cons, blockFrom]
    cases he : e.used with
    | false =>
      rw [if_pos (hused.mpr he), List.takeWhile_cons_of_neg (by simp [he])]
      rfl
    | true =>
      rw [if_neg (by simp [hused, he]), List.takeWhile_cons_of_pos he, hfirst]
      split_ifs with hindex
      · rw [hindex, Nat.sub_self]
        rfl
      · have hshift : index - j = index - (j + 1) + 1 := by omega
        rw [ih (fun k hk => ?_) (by omega), hshift, List.getElem?_cons_succ, List.length_cons,
          Nat.add_right_comm, Nat.add_assoc]
        have hnext := h (k + 1) (Nat.succ_lt_succ hk)
        rw [List.getElem_cons_succ] at hnext
        rw [← hnext, Nat.mul_succ, Nat.add_assoc, Nat.add_comm 32]

theorem read_block {c : ℕ} (hfat : d.Supported) (hsector : d.bytesPerSector = d.driver.sectorSize)
    (hdvd : d.bytesPerSector ∣ d.size) (hc : c * d.bytesPerSector < d.size) :
    d.read tail d.bytesPerSector (c * d.bytesPerSector) =
      ((d.bytesPerSector : ℤ), slice d.byteAt (c * d.bytesPerSector) d.bytesPerSector) := by
  have hpos := d.bytes_pos
  have hle := d.bytes_le
  have hlt := d.size_lt
  have hasked : Asked d.bytesPerSector := ⟨hpos, by omega⟩
  have hnext : c * d.bytesPerSector + d.bytesPerSector ≤ d.size := by
    obtain ⟨n, hn⟩ := hdvd
    rw [hn, Nat.mul_comm] at hc ⊢
    rw [← Nat.mul_succ]
    exact Nat.mul_le_mul_left _ (Nat.lt_of_mul_lt_mul_left hc)
  have hsource := FatFile.source hfat hsector
  have hstored := hsource.copyOf_eq tail hasked hc ⟨by omega, .inl (Nat.mul_mod_left _ _)⟩
  rw [Nat.min_eq_left (by omega)] at hstored
  have hread : d.read tail d.bytesPerSector (c * d.bytesPerSector) =
      copyResult (copyOf d.size d.bytesPerSector d.chainBlocks tail d.bytesPerSector
        (c * d.bytesPerSector)) := by
    rw [FatFile.read, if_neg (Nat.not_le.mpr hc)]
    rfl
  rw [hread, result_of_ok (hsource.copyOf_full tail hasked hc).2, hstored, slice_length]
  rw [hstored, slice_length]
  omega

/-- The records in the buffer after a block was read. -/
theorem block_records {q c : ℕ} (hq : d.bytesPerSector = 32 * q) (hc : c * q + q ≤ slots.length)
    (hslots : ∀ k (h : k < slots.length), FatEntry.entryAt d.byteAt (32 * k) = slots[k]) :
    ∀ k (hk : k < ((slots.drop (c * q)).take q).length), FatEntry.entryAt
      (fun o => (slice d.byteAt (c * d.bytesPerSector) d.bytesPerSector).getD o 0) (0 + 32 * k) =
        ((slots.drop (c * q)).take q)[k] := by
  intro k hk
  have hkq : k < q := hk.trans_le (List.length_take_le _ _)
  rw [List.getElem_take, List.getElem_drop, ← hslots _ (by omega)]
  apply entryAt_eq
  intro j hj
  rw [List.getD_eq_getElem?_getD, slice_getElem? _ (by omega), Option.getD_some, hq]
  congr 1
  rw [Nat.mul_add, Nat.mul_left_comm]
  omega

/-- The records of a block that are used, and those of the blocks behind it. -/
theorem filter_used_block (hlast : slots.Pairwise fun a b => b.used → a.used) (c q : ℕ) :
    (slots.drop (c * q)).filter FatEntry.used =
      ((slots.drop (c * q)).take q).takeWhile FatEntry.used ++
        (slots.drop ((c + 1) * q)).filter FatEntry.used := by
  have hsub : ((slots.drop (c * q)).take q).Sublist slots :=
    (List.take_sublist _ _).trans (List.drop_sublist _ _)
  rw [takeWhile_used (hlast.sublist hsub), ← List.filter_append, Nat.succ_mul, ← List.drop_drop,
    List.take_append_drop]

theorem subFrom_eq {q c j fuel blocks : ℕ} (hfat : d.Supported)
    (hsector : d.bytesPerSector = d.driver.sectorSize) (hq : d.bytesPerSector = 32 * q)
    (hsize : d.size = blocks * d.bytesPerSector) (hlen : slots.length = blocks * q)
    (hslots : ∀ k (h : k < slots.length), FatEntry.entryAt d.byteAt (32 * k) = slots[k])
    (hlast : slots.Pairwise fun a b => b.used → a.used) (hc : c ≤ blocks) (hfuel : blocks - c < fuel)
    (hj : j ≤ index) : d.subFrom tail index fuel (c * d.bytesPerSector) j =
      some (pick ((slots.drop (c * q)).filter FatEntry.used) (index - j)) := by
  have hpos := d.bytes_pos
  induction fuel generalizing c j with
  | zero => omega
  | succ fuel ih =>
    rw [subFrom]
    rcases hc.lt_or_eq with hlt | rfl
    · have hin : c * d.bytesPerSector < d.size := by
        rw [hsize]
        exact Nat.mul_lt_mul_of_pos_right hlt hpos
      have hnext : (c * d.bytesPerSector + d.bytesPerSector) % word32 = (c + 1) * d.bytesPerSector := by
        have hle := Nat.mul_le_mul_right d.bytesPerSector (Nat.succ_le_of_lt hlt)
        rw [← Nat.succ_mul, Nat.mod_eq_of_lt (by have := d.size_lt; omega)]
      rw [read_block hfat hsector ⟨blocks, by rw [hsize, Nat.mul_comm]⟩ hin, hnext]
      dsimp only
      rw [if_neg (by omega)]
      have hmul : (c + 1) * q ≤ blocks * q := Nat.mul_le_mul_right q hlt
      rw [Nat.succ_mul] at hmul
      have hcount : ((slots.drop (c * q)).take q).length = q := by
        rw [List.length_take, List.length_drop, hlen]
        omega
      have hpasses : (d.bytesPerSector + 31) / 32 = ((slots.drop (c * q)).take q).length := by
        rw [hcount, hq]
        omega
      rw [hpasses, blockFrom_eq (block_records hq (hlen ▸ hmul) hslots) hj,
        filter_used_block hlast c q, pick, List.getElem?_append]
      split_ifs with hin
      · rw [List.getElem?_eq_getElem hin]
      · rw [List.getElem?_eq_none (not_lt.mp hin)]
        dsimp only
        rw [ih hlt (by omega) (by omega), Nat.sub_sub]
        rfl
    · have hdone : ¬ 0 < (d.read tail d.bytesPerSector (c * d.bytesPerSector)).1 := by
        rw [FatFile.read, if_pos hsize.le]
        exact lt_irrefl 0
      rw [if_pos (not_lt.mp hdone), List.drop_eq_nil_of_le hlen.le]
      rfl

/-! ### What a directory lists -/

def counts (d : FatDirectory) (e : FatEntry) : Bool := e.used && (d.cluster ≠ 0 || !e.volume)

/-- What `fat_readdir` gives. -/
def shown (d : FatDirectory) (slots : List FatEntry) : List FatEntry :=
  (if d.cluster = 0 then [d.entry, d.entry] else []) ++ slots.filter d.counts

/-- The chain of a directory does not come back to a cluster where it has been. -/
def SizeEnds (d : FatDirectory) (e : FatEntry) : Prop :=
  e.directory → e.cluster = 0 ∨ ({ d.toFatFile with cluster := e.cluster } : FatFile).Acyclic

variable {ret io name : CString} {fuel k : ℕ} {e : FatEntry}

theorem storeName_of_dots {l : List UInt8} (tail : ℕ → UInt8) (ret name : CString) (h : IsDots e l)
    (hl : CString.Unpadded l) : (e.storeName tail ret name).IsString l := by
  have hname : CString.Padded (e.chars tail) 8 l := by
    refine ⟨h.name.length_le, fun i hi => ?_⟩
    rw [← h.name.eq i hi, FatEntry.chars, List.getD_append _ _ _ _ (by rwa [h.name_length]),
      List.getD_eq_getElem _ _ (by rwa [h.name_length]), List.getD_eq_getElem _ _ (by rwa [h.name_length])]
  have hext : CString.Padded (fun i => e.chars tail (8 + i)) 3 [] := by
    refine ⟨h.ext.length_le, fun i hi => ?_⟩
    rw [← h.ext.eq i hi, FatEntry.chars, List.getD_append_right _ _ _ _ (by rw [h.name_length]; omega),
      h.name_length, Nat.add_sub_cancel_left, List.getD_eq_getElem _ _ (by rwa [h.ext_length]),
      List.getD_eq_getElem _ _ (by rwa [h.ext_length])]
  have hstring := CString.dos83toStr_isString ret hname hl hext fun c hc => absurd hc List.not_mem_nil
  rw [if_pos rfl] at hstring
  exact CString.strncpy_isString name hstring hl.nonZero (h.name.length_le.trans (by decide)) (by decide)

namespace Stores
variable (h : d.Stores slots)
include h

/-- The loops of `fat_readdir` come to what it shows. -/
theorem rootFrom_eq (hroot : d.cluster = 0) (io : CString) (index : ℕ) :
    d.rootFrom tail index ((d.size + 31) / 32) 0 0 d.rootdirSector io =
      pick (slots.filter d.counts) index := by
  obtain ⟨q, hq⟩ := h.record_dvd
  obtain ⟨hsize, hdrive⟩ := h.root hroot
  obtain ⟨blocks, hblocks⟩ := d.rootdir_dvd
  have hpos := d.bytes_pos
  have hlen : slots.length = q * blocks := by
    have hslots := h.size_eq
    rw [hsize, hblocks, hq, Nat.mul_assoc] at hslots
    omega
  have hindex : d.size / d.bytesPerSector = blocks := by
    rw [hsize, hblocks, Nat.mul_div_cancel_left _ hpos]
  have hcounts : ∀ e ∈ slots, d.counts e = counted e := fun e _ => by simp [counts, counted, hroot]
  have hpasses : (d.size + 31) / 32 = slots.length := by
    have := h.size_eq
    omega
  have hbyte : d.dirByte = d.rootByte := if_pos hroot
  rw [List.filter_congr hcounts, hpasses]
  refine FatDirectory.rootFrom_eq hq h.readable h.sectorSize (fun k hk => ?_) (hbyte ▸ h.records)
    (Nat.zero_add _) (Nat.zero_le _) (fun _ => by rw [Nat.zero_div, Nat.add_zero])
    fun hne => absurd (Nat.zero_mod q) hne
  rw [hlen] at hk
  have := Nat.div_lt_of_lt_mul hk
  omega

theorem subFrom_eq (hsub : d.cluster ≠ 0) (hfuel : slots.length < fuel) (index : ℕ) :
    d.subFrom tail index fuel 0 0 = some (pick (slots.filter d.counts) index) := by
  obtain ⟨q, hq⟩ := h.record_dvd
  obtain ⟨hfat, ⟨blocks, hblocks⟩, -⟩ := h.sub hsub
  have hpos := d.bytes_pos
  have hlen : slots.length = blocks * q := by
    have hslots := h.size_eq
    rw [hblocks, hq, Nat.mul_assoc, Nat.mul_comm q] at hslots
    omega
  have hle : blocks ≤ slots.length := by
    rw [hlen]
    exact Nat.le_mul_of_pos_right blocks (by omega)
  have hcounts : ∀ e ∈ slots, d.counts e = e.used := fun e _ => by simp [counts, hsub]
  have hbyte : d.dirByte = d.byteAt := if_neg hsub
  have hfrom : d.subFrom tail index fuel (0 * d.bytesPerSector) 0 = _ :=
    FatDirectory.subFrom_eq hfat h.sectorSize.symm hq (hblocks.trans (Nat.mul_comm _ _)) hlen
      (hbyte ▸ h.records) h.last (Nat.zero_le _) (by omega) (Nat.zero_le index)
  rw [Nat.zero_mul, Nat.zero_mul, List.drop_zero, Nat.sub_zero] at hfrom
  rw [List.filter_congr hcounts, hfrom]

theorem actualSize_self (hroot : d.cluster = 0) (fuel : ℕ) :
    d.actualSize fuel d.entry = some d.entry.size := by
  rw [actualSize, if_pos h.directory, FatFile.fatCalculateActualSize,
    if_pos (d.cluster_eq.trans hroot), d.entry_size, (h.root hroot).1]
  rfl

/-- An entry that is shown is returned as soon as its size is there. -/
theorem readdir_some (hk : (d.shown slots)[k]? = some e) (hfuel : slots.length < fuel)
    (tail : ℕ → UInt8) (ret io name : CString) : ∃ stored, NameStored tail ret name k e stored ∧
      d.readdir tail ret io fuel k name = (d.actualSize fuel e).map fun size =>
        .ok (stored, FatEntry.statFill { e with size := size }) := by
  have hdir : ¬ d.entry.directory = false := by simp [h.directory]
  rw [readdir, if_neg hdir]
  rw [shown] at hk
  by_cases hroot : d.cluster = 0
  · rw [if_pos hroot] at hk ⊢
    obtain rfl | rfl | ⟨n, rfl⟩ : k = 0 ∨ k = 1 ∨ ∃ n, k = n + 2 := by
      cases k with
      | zero => exact .inl rfl
      | succ k => cases k with
        | zero => exact .inr (.inl rfl)
        | succ n => exact .inr (.inr ⟨n, rfl⟩)
    · obtain rfl : d.entry = e := Option.some.inj hk
      rw [h.actualSize_self hroot]
      exact ⟨_, CString.strncpy_isString name CString.dot_isString (by simp [CString.NonZero])
        le_rfl (by decide), rfl⟩
    · obtain rfl : d.entry = e := Option.some.inj hk
      rw [h.actualSize_self hroot]
      exact ⟨_, CString.strncpy_isString name CString.dotDot_isString (by simp [CString.NonZero])
        le_rfl (by decide), rfl⟩
    · have hget : (slots.filter d.counts)[n]? = some e := hk
      rw [if_neg (by omega), if_neg (by omega), Nat.add_sub_cancel, h.rootFrom_eq hroot, pick, hget]
      exact ⟨_, rfl, rfl⟩
  · rw [if_neg hroot, List.nil_append] at hk
    rw [if_neg hroot, h.subFrom_eq hroot hfuel, pick, hk]
    refine ⟨_, ?_, rfl⟩
    -- the first two records are those of the directory and its parent
    obtain ⟨-, -, dot, dotDot, rest, rfl, hdot, hdotDot⟩ := h.sub hroot
    have hfirst : ∀ e l, IsDots e l → d.counts e = true := fun e l he => by
      have := he.inUse
      simp only [FatEntry.inUse, Bool.and_eq_true] at this
      simp [counts, hroot, this.1.1]
    rw [List.filter_cons_of_pos (hfirst _ _ hdot), List.filter_cons_of_pos (hfirst _ _ hdotDot)] at hk
    rw [NameStored]
    split_ifs with hzero hone
    · subst hzero
      obtain rfl : dot = e := Option.some.inj hk
      exact storeName_of_dots tail ret name hdot (by simp [CString.Unpadded])
    · subst hone
      obtain rfl : dotDot = e := Option.some.inj hk
      exact storeName_of_dots tail ret name hdotDot (by simp [CString.Unpadded])
    · rfl

theorem readdir_none (hk : (d.shown slots)[k]? = none) (hfuel : slots.length < fuel)
    (tail : ℕ → UInt8) (ret io name : CString) :
    d.readdir tail ret io fuel k name = some (.error (-Vfs.enoent)) := by
  have hdir : ¬ d.entry.directory = false := by simp [h.directory]
  rw [readdir, if_neg hdir]
  rw [shown] at hk
  by_cases hroot : d.cluster = 0
  · rw [if_pos hroot] at hk ⊢
    have hlen := List.getElem?_eq_none_iff.mp hk
    rw [List.length_append] at hlen
    have htwo : [d.entry, d.entry].length = 2 := rfl
    rw [if_neg (by omega), if_neg (by omega), h.rootFrom_eq hroot, pick,
      List.getElem?_eq_none (by omega)]
  · rw [if_neg hroot, List.nil_append] at hk
    rw [if_neg hroot, h.subFrom_eq hroot hfuel, pick, hk]
    rfl

end Stores

theorem counts_of_inUse (he : e.inUse) : d.counts e := by
  simp only [FatEntry.inUse, Bool.and_eq_true] at he
  simp [counts, he.1.1, he.2]

theorem actualSize_isSome :
    (∃ least, ∀ fuel ≥ least, (d.actualSize fuel e).isSome) ↔ d.SizeEnds e := by
  simp only [actualSize, SizeEnds]
  cases he : e.directory with
  | false => simp
  | true =>
    have hends := FatFile.fatCalculateActualSize_ends
      (f := { d.toFatFile with cluster := e.cluster })
    rw [imp_iff_right rfl, ← hends]
    constructor
    · rintro ⟨least, hsome⟩
      exact ⟨least, hsome least le_rfl⟩
    · rintro ⟨least, hsome⟩
      exact ⟨least, fun fuel hfuel => FatFile.fatCalculateActualSize_mono hfuel hsome⟩

end FatDirectory

end DosKernel
