import DosKernel.Fs.Ext2Directory
import DosKernel.Fs.FatNames
import DosKernel.Fs.Iso9660Reads

/-! The directories of an ISO 9660 volume. `iso9660_readdir` reads the first block of the extent
and walks the records there; it tests the length of a record when it leaves the record, and not
the length of the one that it comes to. -/

namespace DosKernel

open Lib

/-- `iso9660_directory_entry`, as far as a `stat` of it is used. -/
structure Iso9660Entry where
  length : ℕ
  extentLba : ℕ
  extentSize : ℕ
  flags : ℕ
  nameLength : ℕ
  deriving DecidableEq

namespace Iso9660Entry

def entryAt (b : ℕ → UInt8) (o : ℕ) : Iso9660Entry where
  length := (b o).toNat
  extentLba := Ext2Volume.word b (o + 2)
  extentSize := Ext2Volume.word b (o + 10)
  flags := (b (o + 25)).toNat
  nameLength := (b (o + 32)).toNat

/-- `ISO9660_DIRECTORY_ENTRY_FLAG_DIRECTORY` is set. -/
def directory (e : Iso9660Entry) : Bool := e.flags &&& 2 ≠ 0

end Iso9660Entry

/-- `struct stat`, as `iso9660_stat_fill` and `iso9660_readdir` fill it in from an entry. -/
structure Iso9660Stat where
  directory : Bool
  size : ℕ
  blocks : ℕ
  ino : ℕ
  entry : Iso9660Entry
  deriving DecidableEq

/-- `iso9660_stat_fill`, and the number that `iso9660_readdir` gives. -/
def Iso9660Entry.statFill (e : Iso9660Entry) : Iso9660Stat where
  directory := e.directory
  size := e.extentSize
  blocks := e.extentSize / 512
  ino := e.extentLba
  entry := e

namespace CString

/-- A character at an address, which wraps. -/
def put (s : CString) (address : ℕ) (c : UInt8) : CString := Function.update s (address % word32) c

/-- `if (name[len - 1] == '.') name[len - 1] = '\0'`. -/
def cutDot (name : CString) (len : ℕ) : CString :=
  if name ((len + word32 - 1) % word32) = 46 then name.put (len + word32 - 1) 0 else name

/-- The name of an entry in the caller's buffer, without the two last characters if the entry is a
file, and without a trailing dot. -/
def storeEntry (name : CString) (e : Iso9660Entry) (source : CString) : CString :=
  let len := e.nameLength
  let copied := put (fun i => if i < len then source i else name i) len 0
  if e.directory then cutDot copied len
  else cutDot ((copied.put (len + word32 - 2) 0).put (len + word32 - 1) 0) ((len + word32 - 2) % word32)

/-- The name that `iso9660_readdir` stores. -/
def storeName (name : CString) (index : ℕ) (e : Iso9660Entry) (source : CString) : CString :=
  let stored := name.storeEntry e source
  if index = 0 then stored.strcpy dot
  else if index = 1 then stored.strcpy dotDot
  else stored

end CString

namespace Iso9660File
variable (f : Iso9660File) (tail : ℕ → UInt8)

/-- The loop of `iso9660_readdir`: the offset of the entry that it comes to. -/
def entryOffset (dir : ℕ → UInt8) : (index offset : ℕ) → Option ℕ
  | 0, offset => some offset
  | index + 1, offset =>
    if (dir offset).toNat = 0 then none else entryOffset dir index (offset + (dir offset).toNat)

/-- `iso9660_readdir`, with the memory from the name buffer of the caller on. -/
def readdir (index : ℕ) (name : CString) : Except ℤ (CString × Iso9660Stat) :=
  match f.readBlock tail f.extentLba with
  | none => .error (-eio)
  | some dir =>
    match entryOffset dir index 0 with
    | none => .error (-Vfs.enoent)
    | some offset =>
      let e := Iso9660Entry.entryAt dir offset
      .ok (name.storeName index e fun i => dir (offset + 33 + i), e.statFill)

end Iso9660File

/-! ### Directories on the drive -/

structure Iso9660Record where
  entry : Iso9660Entry
  name : List UInt8
  deriving DecidableEq

namespace Iso9660Record
variable (r : Iso9660Record)

/-- The name of a record without its version number and the dot before it. -/
def identifier : List UInt8 :=
  let l := if r.entry.directory then r.name else r.name.take (r.name.length - 2)
  if l.getLast? = some 46 then l.dropLast else l

def nameAt (k : ℕ) : List UInt8 :=
  if k = 0 then [46] else if k = 1 then [46, 46] else r.identifier

/-- The name is longer than what is taken off it. -/
def NameFits : Prop := r.entry.directory ∨ 3 ≤ r.entry.nameLength

instance : Decidable r.NameFits := inferInstanceAs (Decidable (_ ∨ _))

end Iso9660Record

/-- Records follow each other from an offset on, up to a length byte 0 inside the sector. -/
def RecordsIn (b : ℕ → UInt8) : (offset : ℕ) → List Iso9660Record → Prop
  | offset, [] => offset < iso9660SectorSize ∧ b offset = 0
  | offset, r :: rs => Iso9660Entry.entryAt b offset = r.entry ∧
      slice b (offset + 33) r.entry.nameLength = r.name ∧ 1 ≤ r.entry.nameLength ∧
      33 + r.entry.nameLength ≤ r.entry.length ∧ RecordsIn b (offset + r.entry.length) rs

namespace Iso9660File

/-- The extent has `blocks` blocks, the records of which are `records`. -/
structure Enumerates (f : Iso9660File) (blocks : ℕ) (records : ℕ → List Iso9660Record) : Prop where
  blocks_pos : 0 < blocks
  size_eq : f.extentSize = blocks * iso9660SectorSize
  onDrive : f.startLba + f.extentLba + blocks ≤ word32 + 1
  sectors : ∀ k < blocks, RecordsIn (f.driver.sector (f.startLba + f.extentLba - 1 + k)) 0 (records k)

def nameSize : ℕ := 256

/-- `iso9660_readdir` gives record `k` and writes inside the name buffer only, or there is no
record `k` and it fails. -/
def ListsAt (f : Iso9660File) (tail : ℕ → UInt8) (rs : List Iso9660Record) (k : ℕ) : Prop :=
  ∀ name : CString, match rs[k]? with
    | some r => ∃ stored, f.readdir tail k name = .ok (stored, r.entry.statFill) ∧
        stored.IsString (r.nameAt k) ∧ ∀ i, nameSize ≤ i → i < word32 → stored i = name i
    | none => ∃ e, f.readdir tail k name = .error e

end Iso9660File

/-! ### What is written of a name -/

namespace CString
variable {name source : CString} {l : List UInt8} {len a i : ℕ} {e : Iso9660Entry}

theorem put_of_ne (s : CString) (c : UInt8) (h : i ≠ a % word32) : s.put a c i = s i :=
  Function.update_of_ne h _ _

theorem put_self (s : CString) (c : UInt8) : s.put a c (a % word32) = c := Function.update_self _ _ _

/-- An address a little in front of the end of a string that is long enough. -/
theorem back_mod {n : ℕ} (hle : n ≤ len) (hlt : len < word32) (hpos : 0 < n) :
    (len + word32 - n) % word32 = len - n := by
  rw [word32] at *
  omega

theorem cutDot_of_ge (hlen : len < word32) (hpos : 0 < len) (hi : len ≤ i) :
    name.cutDot len i = name i := by
  rw [cutDot]
  split_ifs
  · exact put_of_ne _ _ (by rw [back_mod hpos hlen Nat.one_pos]; omega)
  · rfl

theorem cutDot_isString (h : IsString name l) (hpos : 0 < l.length) (hlen : l.length < word32) :
    IsString (name.cutDot l.length) (if l.getLast? = some 46 then l.dropLast else l) := by
  have hback : (l.length + word32 - 1) % word32 = l.length - 1 := back_mod hpos hlen Nat.one_pos
  have hlast : name (l.length - 1) = 46 ↔ l.getLast? = some 46 := by
    rw [h _ (Nat.sub_le _ _), List.getLast?_eq_getElem?, List.getD_eq_getElem?_getD,
      List.getElem?_eq_getElem (by omega)]
    simp
  rw [cutDot, hback, if_congr hlast rfl rfl]
  split_ifs with hdot
  · intro i hi
    rw [List.length_dropLast] at hi
    rcases hi.lt_or_eq with hlt | rfl
    · rw [put_of_ne _ _ (by omega), h i (by omega), List.getD_eq_getElem _ _ (by omega),
        List.getD_eq_getElem _ _ (by rwa [List.length_dropLast]), List.getElem_dropLast]
    · rw [← hback, put_self, hback, List.getD_eq_default]
      simp
  · exact h

/-- The name and the 0 behind it. -/
theorem copied_isString (name : CString) (hsource : ∀ i < l.length, source i = l.getD i 0) (hlen : l.length < word32) :
    IsString (put (fun i => if i < l.length then source i else name i) l.length 0) l ∧
      ∀ i, l.length < i → put (fun i => if i < l.length then source i else name i) l.length 0 i =
        name i := by
  have hself : l.length % word32 = l.length := Nat.mod_eq_of_lt hlen
  refine ⟨fun i hi => ?_, fun i hi => ?_⟩
  · rcases hi.lt_or_eq with hlt | rfl
    · rw [put_of_ne _ _ (by omega), if_pos hlt, hsource i hlt]
    · rw [put, Function.update_apply, if_pos hself.symm, List.getD_eq_default _ _ le_rfl]
  · rw [put_of_ne _ _ (by omega), if_neg (by omega)]

/-- The two last characters are taken off. -/
theorem shortened_isString (h : IsString name l) (hthree : 3 ≤ l.length) (hlen : l.length < word32) :
    IsString ((name.put (l.length + word32 - 2) 0).put (l.length + word32 - 1) 0)
        (l.take (l.length - 2)) ∧
      ∀ i, l.length ≤ i → ((name.put (l.length + word32 - 2) 0).put (l.length + word32 - 1) 0) i =
        name i := by
  have htwo : (l.length + word32 - 2) % word32 = l.length - 2 := back_mod (by omega) hlen (by decide)
  have hone : (l.length + word32 - 1) % word32 = l.length - 1 := back_mod (by omega) hlen (by decide)
  refine ⟨fun i hi => ?_, fun i hi => ?_⟩
  · rw [List.length_take] at hi
    rw [put_of_ne _ _ (by omega)]
    rcases (show i ≤ l.length - 2 by omega).lt_or_eq with hlt | rfl
    · rw [put_of_ne _ _ (by omega), h i (by omega), List.getD_eq_getElem _ _ (by omega),
        List.getD_eq_getElem _ _ (by rw [List.length_take]; omega), List.getElem_take]
    · rw [put, Function.update_apply, if_pos htwo.symm, List.getD_eq_default]
      rw [List.length_take]
      omega
  · rw [put_of_ne _ _ (by omega), put_of_ne _ _ (by omega)]

/-- A name that is long enough is stored in as many bytes as it has, and one more. -/
theorem storeEntry_of_fits (name : CString) (hsource : ∀ i < e.nameLength, source i = l.getD i 0)
    (hl : l.length = e.nameLength) (hpos : 1 ≤ e.nameLength) (hlt : e.nameLength < 256)
    (hfits : e.directory ∨ 3 ≤ e.nameLength) :
    IsString (name.storeEntry e source) (Iso9660Record.identifier ⟨e, l⟩) ∧
      ∀ i, 256 ≤ i → name.storeEntry e source i = name i := by
  rw [← hl] at hsource hpos hlt hfits
  have hlen : l.length < word32 := hlt.trans (by decide)
  obtain ⟨hstring, hframe⟩ := copied_isString name hsource hlen
  rw [storeEntry, Iso9660Record.identifier, ← hl]
  dsimp only
  generalize put (fun i => if i < l.length then source i else name i) l.length 0 = copied at *
  cases hdir : e.directory with
  | true =>
    simp only [if_true]
    refine ⟨cutDot_isString hstring hpos hlen, fun i hi => ?_⟩
    rw [cutDot_of_ge hlen hpos (by omega), hframe i (by omega)]
  | false =>
    have hthree : 3 ≤ l.length := hfits.resolve_left (by simp [hdir])
    have htwo : (l.length + word32 - 2) % word32 = l.length - 2 :=
      back_mod (by omega) hlen (by decide)
    have hlength : (l.take (l.length - 2)).length = l.length - 2 := by
      rw [List.length_take]
      omega
    obtain ⟨hshort, hrest⟩ := shortened_isString hstring hthree hlen
    generalize (copied.put (l.length + word32 - 2) 0).put (l.length + word32 - 1) 0 = shortened at *
    have hcut := cutDot_isString hshort (by omega) (by omega)
    simp only [Bool.false_eq_true, if_false, htwo]
    rw [hlength] at hcut
    refine ⟨hcut, fun i hi => ?_⟩
    rw [cutDot_of_ge (by omega) (by omega) (by omega), hrest i (by omega), hframe i (by omega)]

theorem strcpy_dot (s : CString) :
    IsString (s.strcpy dot) [46] ∧ ∀ i, 1 < i → s.strcpy dot i = s i :=
  strcpy_isString s dot_isString (by decide) (by decide)

theorem strcpy_dotDot (s : CString) :
    IsString (s.strcpy dotDot) [46, 46] ∧ ∀ i, 2 < i → s.strcpy dotDot i = s i :=
  strcpy_isString s dotDot_isString (by decide) (by decide)

theorem storeName_of_fits (name : CString) (k : ℕ) (hsource : ∀ i < e.nameLength, source i = l.getD i 0)
    (hl : l.length = e.nameLength) (hpos : 1 ≤ e.nameLength) (hlt : e.nameLength < 256)
    (hfits : e.directory ∨ 3 ≤ e.nameLength) :
    IsString (name.storeName k e source) (Iso9660Record.nameAt ⟨e, l⟩ k) ∧
      ∀ i, 256 ≤ i → name.storeName k e source i = name i := by
  obtain ⟨hstring, hframe⟩ := storeEntry_of_fits name hsource hl hpos hlt hfits
  rw [storeName, Iso9660Record.nameAt]
  split_ifs
  · obtain ⟨hdot, hrest⟩ := strcpy_dot (name.storeEntry e source)
    exact ⟨hdot, fun i hi => (hrest i (by omega)).trans (hframe i hi)⟩
  · obtain ⟨hdots, hrest⟩ := strcpy_dotDot (name.storeEntry e source)
    exact ⟨hdots, fun i hi => (hrest i (by omega)).trans (hframe i hi)⟩
  · exact ⟨hstring, hframe⟩

/-- A file name of one or two characters is shortened in front of the buffer. -/
theorem storeEntry_of_short (source : CString) (hpos : 1 ≤ e.nameLength) (hshort : e.nameLength < 3)
    (hfile : e.directory = false) (hname : ∀ i, name i = 46) :
    name.storeEntry e source (word32 - 1) = 0 := by
  rw [storeEntry]
  simp only [hfile, Bool.false_eq_true, if_false]
  generalize e.nameLength = len at hpos hshort ⊢
  obtain rfl | rfl : len = 1 ∨ len = 2 := by omega
  · -- the name is cut at the byte in front of the buffer
    rw [cutDot]
    split_ifs <;> simp [put, word32]
  · -- nothing is left of the name, and the byte in front of the buffer is a dot
    rw [cutDot, if_pos (by simp [put, word32, hname])]
    simp [put, word32]

theorem storeName_of_short (k : ℕ) (hpos : 1 ≤ e.nameLength) (hshort : e.nameLength < 3)
    (hfile : e.directory = false) (hname : ∀ i, name i = 46) :
    name.storeName k e source (word32 - 1) = 0 := by
  have hzero := storeEntry_of_short source hpos hshort hfile hname
  rw [storeName]
  split_ifs
  · rwa [(strcpy_dot _).2 _ (by decide)]
  · rwa [(strcpy_dotDot _).2 _ (by decide)]
  · exact hzero

end CString

/-! ### The walk over the records -/

section Records
variable {b b' : ℕ → UInt8} {rs : List Iso9660Record} {r : Iso9660Record} {o k : ℕ}

theorem RecordsIn.lt (h : RecordsIn b o rs) : o < iso9660SectorSize := by
  induction rs generalizing o with
  | nil => exact h.1
  | cons r rs ih =>
    obtain ⟨-, -, -, -, hrest⟩ := h
    have := ih hrest
    omega

theorem Iso9660Entry.entryAt_eq (h : ∀ j < 33, b (o + j) = b' (o + j)) :
    Iso9660Entry.entryAt b o = Iso9660Entry.entryAt b' o := by
  have hfirst := h 0 (by omega)
  have hword : ∀ n, n + 4 ≤ 33 → Ext2Volume.word b (o + n) = Ext2Volume.word b' (o + n) := fun n hn =>
    Ext2Inodes.word_congr fun j hj => by
      rw [Nat.add_assoc]
      exact h _ (by omega)
  rw [Nat.add_zero] at hfirst
  rw [Iso9660Entry.entryAt, Iso9660Entry.entryAt, hfirst, hword 2 (by omega), hword 10 (by omega),
    h 25 (by omega), h 32 (by omega)]

/-- Only the bytes of the sector matter. -/
theorem RecordsIn.congr (hb : ∀ j < iso9660SectorSize, b j = b' j) (h : RecordsIn b o rs) :
    RecordsIn b' o rs := by
  induction rs generalizing o with
  | nil => exact ⟨h.1, (hb o h.1).symm.trans h.2⟩
  | cons r rs ih =>
    obtain ⟨hentry, hname, hpos, hsize, hrest⟩ := h
    have hlt := hrest.lt
    refine ⟨?_, ?_, hpos, hsize, ih hrest⟩
    · rw [← hentry]
      exact Iso9660Entry.entryAt_eq fun j hj => (hb _ (by omega)).symm
    · rw [← hname]
      exact slice_congr fun j hj => (hb _ (by omega)).symm

theorem RecordsIn.length_of_mem (h : RecordsIn b o rs) (hr : r ∈ rs) : 0 < r.entry.length := by
  induction rs generalizing o with
  | nil => cases hr
  | cons r' rs ih =>
    obtain ⟨-, -, -, hsize, hrest⟩ := h
    rcases List.mem_cons.mp hr with rfl | hmem
    · omega
    · exact ih hrest hmem

/-- The walk comes to the record, or to the length byte 0 behind the last one. -/
theorem entryOffset_of_le (h : RecordsIn b o rs) (hk : k ≤ rs.length) :
    ∃ o', Iso9660File.entryOffset b k o = some o' ∧ RecordsIn b o' (rs.drop k) := by
  induction k generalizing o rs with
  | zero => exact ⟨o, rfl, h⟩
  | succ k ih =>
    cases rs with
    | nil => simp at hk
    | cons r rs =>
      obtain ⟨hentry, -, -, hsize, hrest⟩ := h
      have hlength : (b o).toNat = r.entry.length := congrArg Iso9660Entry.length hentry
      rw [Iso9660File.entryOffset, hlength, if_neg (by omega)]
      exact ih hrest (Nat.le_of_succ_le_succ hk)

/-- It does not leave the length byte 0. -/
theorem entryOffset_of_gt (h : RecordsIn b o rs) (hk : rs.length < k) :
    Iso9660File.entryOffset b k o = none := by
  induction k generalizing o rs with
  | zero => simp at hk
  | succ k ih =>
    rw [Iso9660File.entryOffset]
    cases rs with
    | nil =>
      have hzero : (b o).toNat = 0 := by rw [h.2]; rfl
      rw [if_pos hzero]
    | cons r rs =>
      obtain ⟨hentry, -, -, hsize, hrest⟩ := h
      have hlength : (b o).toNat = r.entry.length := congrArg Iso9660Entry.length hentry
      rw [hlength, if_neg (by omega)]
      exact ih hrest (Nat.lt_of_succ_lt_succ hk)

end Records

namespace Iso9660File
variable {f : Iso9660File} {tail : ℕ → UInt8} {blocks k : ℕ} {records : ℕ → List Iso9660Record}
  {r : Iso9660Record}

/-- The records of all blocks in their order on the drive. -/
def listed (blocks : ℕ) (records : ℕ → List Iso9660Record) : List Iso9660Record :=
  (List.range blocks).flatMap records

namespace Enumerates
variable (h : f.Enumerates blocks records)
include h

theorem length_of_mem (hr : r ∈ listed blocks records) : 0 < r.entry.length := by
  obtain ⟨s, hs, hr⟩ := List.mem_flatMap.mp hr
  exact (h.sectors s (List.mem_range.mp hs)).length_of_mem hr

/-- The first block comes first. -/
theorem listed_getElem? (hk : k < (records 0).length) :
    (listed blocks records)[k]? = (records 0)[k]? := by
  obtain ⟨n, rfl⟩ : ∃ n, blocks = n + 1 := ⟨blocks - 1, by have := h.blocks_pos; omega⟩
  rw [listed, List.range_succ_eq_map, List.flatMap_cons, List.getElem?_append_left hk]

theorem length_le : (records 0).length ≤ (listed blocks records).length := by
  obtain ⟨n, rfl⟩ : ∃ n, blocks = n + 1 := ⟨blocks - 1, by have := h.blocks_pos; omega⟩
  rw [listed, List.range_succ_eq_map, List.flatMap_cons, List.length_append]
  exact Nat.le_add_right _ _

/-- The block in the buffer holds the records of the first sector. -/
theorem readBlock_records (hsector : f.driver.sectorSize = iso9660SectorSize)
    (hfirst : ∀ lba, f.driver.fails lba 2 = false) (tail : ℕ → UInt8) :
    ∃ dir, f.readBlock tail f.extentLba = some dir ∧ RecordsIn dir 0 (records 0) := by
  have hdrive := h.onDrive
  have hblocks := h.blocks_pos
  have hpos := f.start_pos
  refine ⟨_, readBlock_first hsector hfirst tail _, (h.sectors 0 hblocks).congr fun j hj => ?_⟩
  rw [IoDriver.buffer, if_pos hj, hsector, Nat.div_eq_of_lt hj, Nat.mod_eq_of_lt hj,
    show f.startLba + f.extentLba + word32 - 1 = f.startLba + f.extentLba - 1 + word32 by omega,
    Nat.add_mod_right, Nat.mod_eq_of_lt (by omega)]
  rfl

/-- The directory as the first block shows it: the records, then the place behind the last one,
and then nothing. -/
theorem readdir_of_lt (hsector : f.driver.sectorSize = iso9660SectorSize)
    (hfirst : ∀ lba, f.driver.fails lba 2 = false) (hr : (records 0)[k]? = some r) (tail : ℕ → UInt8)
    (name : CString) : ∃ source : CString, f.readdir tail k name =
        .ok (name.storeName k r.entry source, r.entry.statFill) ∧
      (∀ i < r.entry.nameLength, source i = r.name.getD i 0) ∧
      r.name.length = r.entry.nameLength ∧ 1 ≤ r.entry.nameLength ∧ r.entry.nameLength < 256 := by
  obtain ⟨dir, hdir, hrecords⟩ := h.readBlock_records hsector hfirst tail
  obtain ⟨hk, hget⟩ := List.getElem?_eq_some_iff.mp hr
  obtain ⟨o, hoffset, hrest⟩ := entryOffset_of_le hrecords hk.le
  rw [List.drop_eq_getElem_cons hk, hget] at hrest
  obtain ⟨hentry, hname, hpos, -, -⟩ := hrest
  refine ⟨fun i => dir (o + 33 + i), ?_, fun i hi => ?_, ?_, hpos, ?_⟩
  · rw [readdir, hdir]
    dsimp only
    rw [hoffset]
    dsimp only
    rw [hentry]
  · rw [← hname, List.getD_eq_getElem?_getD, slice_getElem? _ hi]
    rfl
  · rw [← hname, slice_length]
  · rw [← hentry]
    exact UInt8.toNat_lt _

theorem readdir_of_eq (hsector : f.driver.sectorSize = iso9660SectorSize)
    (hfirst : ∀ lba, f.driver.fails lba 2 = false) (tail : ℕ → UInt8) (name : CString) :
    ∃ stored e, f.readdir tail (records 0).length name = .ok (stored, Iso9660Entry.statFill e) ∧
      e.length = 0 := by
  obtain ⟨dir, hdir, hrecords⟩ := h.readBlock_records hsector hfirst tail
  obtain ⟨o, hoffset, hrest⟩ := entryOffset_of_le hrecords le_rfl
  rw [List.drop_length] at hrest
  rw [readdir, hdir]
  dsimp only
  rw [hoffset]
  exact ⟨_, _, rfl, congrArg UInt8.toNat hrest.2⟩

theorem readdir_of_gt (hsector : f.driver.sectorSize = iso9660SectorSize)
    (hfirst : ∀ lba, f.driver.fails lba 2 = false) (hk : (records 0).length < k) (name : CString) :
    f.readdir tail k name = .error (-Vfs.enoent) := by
  obtain ⟨dir, hdir, hrecords⟩ := h.readBlock_records hsector hfirst tail
  rw [readdir, hdir]
  dsimp only
  rw [entryOffset_of_gt hrecords hk]

/-- The place behind the records of the first block is listed, and is no record. -/
theorem not_listsAt (hsector : f.driver.sectorSize = iso9660SectorSize)
    (hfirst : ∀ lba, f.driver.fails lba 2 = false) (tail : ℕ → UInt8) :
    ¬ f.ListsAt tail (listed blocks records) (records 0).length := by
  intro hlists
  obtain ⟨stored, e, hread, hzero⟩ := h.readdir_of_eq hsector hfirst tail fun _ => 0
  have hlists := hlists fun _ => 0
  rw [hread] at hlists
  cases hr : (listed blocks records)[(records 0).length]? with
  | none =>
    rw [hr] at hlists
    obtain ⟨_, herror⟩ := hlists
    cases herror
  | some r =>
    rw [hr] at hlists
    obtain ⟨_, hok, -⟩ := hlists
    have hentry : e = r.entry :=
      congrArg Iso9660Stat.entry (Prod.mk.inj (Except.ok.inj hok)).2
    have hpos := h.length_of_mem (List.mem_of_getElem? hr)
    rw [← hentry, hzero] at hpos
    exact lt_irrefl 0 hpos

/-- A record of the first block is listed if its name is long enough. -/
theorem listsAt_of_lt (hsector : f.driver.sectorSize = iso9660SectorSize)
    (hfirst : ∀ lba, f.driver.fails lba 2 = false) (hr : (records 0)[k]? = some r)
    (tail : ℕ → UInt8) : f.ListsAt tail (listed blocks records) k ↔ r.NameFits := by
  obtain ⟨hlt, -⟩ := List.getElem?_eq_some_iff.mp hr
  rw [ListsAt, h.listed_getElem? hlt, hr]
  constructor
  · intro hlists
    by_contra hfits
    obtain ⟨hfile, hshort⟩ := not_or.mp hfits
    -- a buffer in which every change shows
    obtain ⟨source, hread, -, -, hpos, -⟩ :=
      h.readdir_of_lt hsector hfirst hr tail fun _ => 46
    obtain ⟨stored, hok, -, hframe⟩ := hlists fun _ => 46
    rw [hread] at hok
    have hstored := (Prod.mk.inj (Except.ok.inj hok)).1
    have hsame := hframe (word32 - 1) (by decide) (by decide)
    rw [← hstored, CString.storeName_of_short k hpos (Nat.lt_of_not_le hshort) (by simpa using hfile)
      fun _ => rfl] at hsame
    exact absurd hsame (by decide)
  · intro hfits name
    obtain ⟨source, hread, hsource, hname, hpos, hsize⟩ :=
      h.readdir_of_lt hsector hfirst hr tail name
    obtain ⟨hstring, hframe⟩ :=
      CString.storeName_of_fits name k hsource hname hpos hsize hfits
    exact ⟨_, hread, hstring, fun i hi _ => hframe i hi⟩

theorem listsAt_of_gt (hsector : f.driver.sectorSize = iso9660SectorSize)
    (hfirst : ∀ lba, f.driver.fails lba 2 = false) (hk : (records 0).length < k)
    (tail : ℕ → UInt8) :
    f.ListsAt tail (listed blocks records) k ↔ (listed blocks records).length ≤ k := by
  constructor
  · intro hlists
    by_contra hle
    obtain ⟨_, hok, -⟩ : ∃ stored, f.readdir tail k (fun _ => 0) = .ok (stored, _) ∧ _ := by
      have hlists := hlists fun _ => 0
      rwa [List.getElem?_eq_getElem (Nat.lt_of_not_le hle)] at hlists
    rw [h.readdir_of_gt hsector hfirst hk] at hok
    cases hok
  · intro hle name
    rw [List.getElem?_eq_none hle]
    exact ⟨_, h.readdir_of_gt hsector hfirst hk name⟩

end Enumerates

/-- `iso9660_readdir` is right about place `k` exactly if the first block has a record there with
a name that is long enough for what is taken off it, or the place is not the first one behind the
records of that block and no block has a record there. -/
theorem listsAt_iff (hsector : f.driver.sectorSize = iso9660SectorSize)
    (hfirst : ∀ lba, f.driver.fails lba 2 = false) (h : f.Enumerates blocks records)
    (tail : ℕ → UInt8) (k : ℕ) : f.ListsAt tail (listed blocks records) k ↔
      (∃ r, (records 0)[k]? = some r ∧ r.NameFits) ∨
        ((records 0).length < k ∧ (listed blocks records).length ≤ k) := by
  rcases lt_trichotomy k (records 0).length with hlt | rfl | hgt
  · have hr : (records 0)[k]? = some (records 0)[k] := List.getElem?_eq_getElem hlt
    rw [h.listsAt_of_lt hsector hfirst hr tail, hr]
    simp [hlt.not_gt]
  · refine iff_of_false (h.not_listsAt hsector hfirst tail) ?_
    rintro (⟨r, hr, -⟩ | ⟨hlt, -⟩)
    · simp at hr
    · exact absurd hlt (lt_irrefl _)
  · rw [h.listsAt_of_gt hsector hfirst hgt tail, List.getElem?_eq_none hgt.le]
    simp [hgt]

/-- A sector with the records of a directory, its parent and a file `A.;1`. -/
def directorySector : ℕ → UInt8
  | 0 => 34
  | 25 => 2
  | 32 => 1
  | 34 => 34
  | 59 => 2
  | 66 => 1
  | 67 => 1
  | 68 => 38
  | 100 => 4
  | 101 => 65
  | 102 => 46
  | 103 => 59
  | 104 => 49
  | _ => 0

def directoryExample : Iso9660File where
  driver := ⟨2048, fun _ => directorySector, fun _ _ => false, sector2048_pos⟩
  startLba := 1
  extentLba := 24
  extentSize := 2048
  start_pos := Nat.one_pos
  sector_dvd := ⟨1, rfl⟩
  size_lt := by decide

def recordsExample : List Iso9660Record :=
  [⟨⟨34, 0, 0, 2, 1⟩, [0]⟩, ⟨⟨34, 0, 0, 2, 1⟩, [1]⟩, ⟨⟨38, 0, 0, 0, 4⟩, [65, 46, 59, 49]⟩]

theorem directoryExample_enumerates : directoryExample.Enumerates 1 fun _ => recordsExample where
  blocks_pos := by decide
  size_eq := by decide
  onDrive := by decide
  sectors := fun k _ => by
    change RecordsIn directorySector 0 recordsExample
    refine ⟨?_, ?_, ?_, ?_, ?_, ?_, ?_, ?_, ?_, ?_, ?_, ?_, ?_, ?_⟩ <;> decide

theorem listsAt_of_file :
    directoryExample.ListsAt (fun _ => 0xff) (listed 1 fun _ => recordsExample) 2 :=
  (listsAt_iff rfl (fun _ => rfl) directoryExample_enumerates _ _).mpr (.inl ⟨_, rfl, by decide⟩)

/-- Behind the last record one more is listed. -/
theorem listsAt_wrong : ¬ ∀ (f : Iso9660File) (blocks : ℕ) (records : ℕ → List Iso9660Record),
    f.driver.sectorSize = iso9660SectorSize → (∀ lba, f.driver.fails lba 2 = false) →
      f.Enumerates blocks records → ∀ tail k, f.ListsAt tail (listed blocks records) k := by
  intro h
  exact directoryExample_enumerates.not_listsAt rfl (fun _ => rfl) (fun _ => 0)
    (h _ _ _ rfl (fun _ => rfl) directoryExample_enumerates _ 3)

end Iso9660File

end DosKernel
