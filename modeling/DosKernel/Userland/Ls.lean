import DosKernel.Fs.Ext2Directory
import DosKernel.Fs.FatDirectory
import DosKernel.Libc.Formats
import DosKernel.Syscall.Read
import DosKernel.Userland.Stdio

/-! The program `ls`. It asks for the entries of a directory one after the other; the kernel stores
an entry at the physical address of the program's buffer, and `printf` puts the name out that the
program finds there. -/

namespace DosKernel.Ls

open Lib Lib.Access CString Userland Libc

/-! ### The code -/

/-- `sizeof(struct dirent)`. -/
def direntSize : ℕ := 268

def bytesAt (m : Memory) (pdt a : ℕ) : CString := fun i => m (mmuGetPhysicalAddressPdt m (a + i) pdt)

/-- `ent->d_name`. -/
def dName (m : Memory) (pdt entry : ℕ) : CString := bytesAt m pdt (entry + 11)

/-- What the calls of the program change: the memory and the descriptor of the directory. -/
structure Opened where
  mem : Memory
  fd : FileDescriptor

/-- `readdir`: whether there was an entry, and what the call of `read` leaves. -/
def readdir (pdt entry : ℕ) (d : Opened) : Lib.Access Unit (Bool × Opened) :=
  match syscallRead d.mem pdt d.fd entry direntSize with
  | none => diverge
  | some (ret, fd, m) => pure (decide (0 < ret), ⟨m, fd⟩)

/-- `char buf[1024] = {0}`, with what is behind it. -/
def zeroed (behind : CString) : CString := fun i => if i < 1024 then 0 else behind i

def vprintf (float : FloatToAscii) (fuel : ℕ) (behind format : CString) (args : List VaArg)
    (s : Output) : Lib.Access Unit (ℤ × Output) :=
  match vsprintf float fuel (zeroed behind) format args with
  | none => diverge
  | some (buf, ret) =>
    if (ret : ℤ) = -1 then pure (-1, s)
    else do
      let (_, s) ← Output.putsFrom buf word32 0 s
      s.flush

/-- `"%s\n"`. -/
def nameFormat : CString := fun i => ['%'.toUInt8, 's'.toUInt8, '\n'.toUInt8].getD i 0

/-- `"ls: failed to open directory\n"`. -/
def failedFormat : CString := fun i =>
  ("ls: failed to open directory\n".toList.map Char.toUInt8).getD i 0

section Code
variable (float : FloatToAscii) (behind : CString) (pdt entry fuel : ℕ)

/-- The loop of `main`. -/
def listFrom : (passes : ℕ) → Opened → Output → Lib.Access Unit (Opened × Output)
  | 0, _, _ => diverge
  | passes + 1, d, s => do
    let (found, d) ← readdir pdt entry d
    if found then do
      let (_, s) ← vprintf float fuel behind nameFormat [.pointer (dName d.mem pdt entry)] s
      listFrom passes d s
    else pure (d, s)

/-- The directory that `main` opens. -/
def pathOf (argv : List CString) : CString := if argv.length = 1 then dot else argv.getD 1 dot

/-- `main`; `opendir` gives the descriptor, if `open` does not fail. -/
def main (opendir : CString → Option FileDescriptor) (argv : List CString) (m : Memory) (s : Output) :
    Lib.Access Unit (ℤ × Output) :=
  match opendir (pathOf argv) with
  | none => do
    let (_, s) ← vprintf float fuel behind failedFormat [] s
    pure (1, s)
  | some fd => do
    let (_, s) ← listFrom float behind pdt entry fuel fuel ⟨m, fd⟩ s
    pure (0, s)

end Code

/-! ### The buffer of the program -/

/-- The bytes lie in one page of the process, the frame of which holds neither the page directory
nor the table that leads to it. -/
structure Buffer (m : Memory) (pdt a n : ℕ) : Prop where
  directory : IsPage pdt
  lt : a < 4294967296
  onePage : pageOffset a + n ≤ 4096
  mapped : ∃ e, pageOf m pdt a = some e ∧ e.frame ≠ pdt ∧
    e.frame ≠ (entryAt m (pdt + 4 * pdIndex a)).frame

section Stores
variable {m : Memory} {pdt a n i : ℕ} {ts : List (UInt8 × ℕ)}

theorem Buffer.address (h : Buffer m pdt a n) (hi : i < n) :
    mmuGetPhysicalAddressPdt m (a + i) pdt = mmuGetPhysicalAddressPdt m a pdt + i := by
  have hpage := h.onePage
  obtain ⟨e, he, -⟩ := h.mapped
  unfold pageOffset at hpage
  have hsame : pageOf m pdt (a + i) = some e := by
    rw [← he]
    apply pageOf_same
    omega
  rw [mmuGetPhysicalAddressPdt, mmuGetPhysicalAddressPdt, hsame, he, Option.elim_some,
    Option.elim_some, pageOffset, pageOffset]
  omega

/-- Stores into the buffer leave the tables alone. -/
theorem Buffer.stored (h : Buffer m pdt a n) (hts : ∀ t ∈ ts, t.2 < n) :
    Buffer (storeAll m (mmuGetPhysicalAddressPdt m a pdt) ts) pdt a n ∧
      mmuGetPhysicalAddressPdt (storeAll m (mmuGetPhysicalAddressPdt m a pdt) ts) a pdt =
        mmuGetPhysicalAddressPdt m a pdt := by
  obtain ⟨hdirectory, hlt, hpage, e, he, hframe, htable⟩ := h
  have hphysical : mmuGetPhysicalAddressPdt m a pdt = e.frame + pageOffset a := by
    rw [mmuGetPhysicalAddressPdt, he, Option.elim_some]
  have hother : ∀ p, IsPage p → e.frame ≠ p →
      SamePage m (storeAll m (mmuGetPhysicalAddressPdt m a pdt) ts) p := by
    intro p hp hne x hlow hhigh
    refine (storeAll_of_not_mem ts (fun t ht heq => ?_) m).symm
    have h1 := e.isPage_frame.aligned
    have h2 := e.isPage_frame.top
    have h3 := hp.aligned
    have h4 := hts t ht
    rw [hphysical] at heq
    simp only [word32] at heq
    omega
  have hdir := hother pdt hdirectory hframe
  have hpd := entryAt_congr hdirectory (show pdIndex a < 1024 by rw [pdIndex]; omega) hdir
  have hsame : pageOf m pdt a = pageOf (storeAll m (mmuGetPhysicalAddressPdt m a pdt) ts) pdt a :=
    pageOf_congr hdirectory hlt hdir fun _ => hother _ (PageEntry.isPage_frame _) htable
  refine ⟨⟨hdirectory, hlt, hpage, e, hsame.symm.trans he, hframe, ?_⟩, ?_⟩
  · rw [← hpd]
    exact htable
  · conv_lhs => rw [mmuGetPhysicalAddressPdt, ← hsame]
    rfl

end Stores

/-! ### An entry -/

section Entry
variable {m : Memory} {pdt entry k : ℕ} {names : List (List UInt8)} {name : List UInt8}
  {fs : FileSystem} {d : Opened}

theorem mem_direntStores {i : ℕ} (hi : i ≤ name.length) (ino mode : ℕ) :
    (name.getD i 0, 11 + i) ∈ direntStores name ino mode := by
  refine List.mem_append_right _ (List.mem_append_right _ (List.mem_append_right _ ?_))
  rw [List.mk_add_mem_zipIdx_iff_getElem?]
  rcases hi.lt_or_eq with hlt | rfl
  · rw [List.getElem?_append_left hlt, List.getElem?_eq_getElem hlt, List.getD_eq_getElem _ _ hlt]
  · rw [List.getElem?_concat_length, List.getD_eq_default _ _ le_rfl]

theorem direntStores_lt (hname : name.length < 256) (ino mode : ℕ) :
    ∀ t ∈ direntStores name ino mode, t.2 < direntSize := by
  intro t ht
  have hmem := List.mem_map_of_mem (f := Prod.snd) ht
  simp only [direntStores, List.map_append, map_snd_zipIdx, leBytes, List.length_map,
    List.length_range, List.length_append, List.length_singleton, List.mem_append,
    List.mem_range'_1] at hmem
  unfold direntSize
  omega

/-- The program finds the name that the kernel has stored. -/
theorem Buffer.stored_name (h : Buffer m pdt entry direntSize) (hname : name.length < 256) (ino mode : ℕ) :
    IsString (dName (storeAll m (mmuGetPhysicalAddressPdt m entry pdt) (direntStores name ino mode))
      pdt entry) name := by
  intro i hi
  obtain ⟨hbuffer, haddress⟩ := h.stored (direntStores_lt hname ino mode)
  have hinside : 11 + i < direntSize := by
    unfold direntSize
    omega
  have hlt := mmuGetPhysicalAddressPdt_lt m (entry + (11 + i)) pdt
  rw [h.address hinside] at hlt
  have hstored : storeAll m (mmuGetPhysicalAddressPdt m entry pdt) (direntStores name ino mode)
      ((mmuGetPhysicalAddressPdt m entry pdt + (11 + i)) % word32) = name.getD i 0 :=
    storeAll_of_mem (offsets_dirent hname ino mode) (mem_direntStores hi ino mode) m
  rw [Nat.mod_eq_of_lt hlt] at hstored
  rw [dName, bytesAt, Nat.add_assoc, hbuffer.address hinside, haddress, hstored]

/-- The file system gives the names one after the other, and then an error. -/
structure Enumerates (fs : FileSystem) (names : List (List UInt8)) : Prop where
  entry : ∀ k name, names[k]? = some name → (fs.readdir k).1 = 1 ∧ (fs.readdir k).2.1 = name
  last : (fs.readdir names.length).1 < 0
  nonZero : ∀ name ∈ names, NonZero name
  length_lt : names.length < word32

/-- The descriptor is open for reading on the directory, at an entry. -/
structure OpenAt (fd : FileDescriptor) (fs : FileSystem) (k : ℕ) : Prop where
  used : fd.used = true
  readable : fd.accessRead = true
  type : fd.type = .ifdir
  fs : fd.fs = fs
  offset : fd.offset = k

theorem OpenAt.read_eq {fd : FileDescriptor} (h : OpenAt fd fs k) (size : ℕ) :
    read fd size = if 0 ≤ (fs.readdir k).1 then
      some ((fs.readdir k).1, { fd with offset := (k + 1) % word32 },
        direntStores (fs.readdir k).2.1 (fs.readdir k).2.2.1 (fs.readdir k).2.2.2)
    else some ((fs.readdir k).1, fd, []) := by
  unfold read
  rw [h.readable, h.used, h.type, h.fs, h.offset]
  rfl

theorem Enumerates.name_lt (h : Enumerates fs names) (hk : names[k]? = some name) :
    name.length < 256 := by
  rw [← (h.entry k name hk).2]
  exact fs.name_lt k

theorem readdir_entry (h : Enumerates fs names) (hk : names[k]? = some name) (hfd : OpenAt d.fd fs k)
    (hbuffer : Buffer d.mem pdt entry direntSize) :
    ∃ m fd, readdir pdt entry d = pure (true, ⟨m, fd⟩) ∧ OpenAt fd fs (k + 1) ∧
      Buffer m pdt entry direntSize ∧ IsString (dName m pdt entry) name := by
  obtain ⟨hret, hname⟩ := h.entry k name hk
  have hlt := h.name_lt hk
  have hnext : k + 1 < word32 := lt_of_le_of_lt (List.getElem?_eq_some_iff.mp hk).1 h.length_lt
  have hread := hfd.read_eq direntSize
  rw [hret, if_pos Int.one_nonneg, hname, Nat.mod_eq_of_lt hnext] at hread
  have hopen : OpenAt { d.fd with offset := k + 1 } fs (k + 1) :=
    ⟨hfd.used, hfd.readable, hfd.type, hfd.fs, rfl⟩
  refine ⟨_, _, ?_, hopen, (hbuffer.stored (direntStores_lt hlt _ _)).1,
    hbuffer.stored_name hlt (fs.readdir k).2.2.1 (fs.readdir k).2.2.2⟩
  rw [readdir, syscallRead, hread, Option.map_some]
  rfl

/-- A call of `readdir` behind the last entry. -/
theorem readdir_end (h : Enumerates fs names) (hfd : OpenAt d.fd fs names.length) :
    ∃ d', readdir pdt entry d = pure (false, d') := by
  have hread := hfd.read_eq direntSize
  rw [if_neg (Int.not_le.mpr h.last)] at hread
  refine ⟨⟨storeAll d.mem (mmuGetPhysicalAddressPdt d.mem entry pdt) [], d.fd⟩, ?_⟩
  rw [readdir, syscallRead, hread, Option.map_some]
  dsimp only
  rw [decide_eq_false (Int.not_lt.mpr h.last.le)]

end Entry

/-! ### What is put out -/

section Printing
variable {format : CString} (float : FloatToAscii) (behind : CString)

/-- A format of such parts is put out. -/
theorem vprintf_pieces (pieces : List Piece)
    (hformat : IsString format (pieces.flatMap Piece.format))
    (hsize : (pieces.flatMap Piece.output).length < 1024)
    (hnonZero : NonZero (pieces.flatMap Piece.output)) : ∃ least, ∀ fuel ≥ least, ∀ s l,
      Output.Flushed s l → Ensures (fun _ => 1024)
        (vprintf float fuel behind format (pieces.flatMap Piece.args) s) fun r =>
          r.2.Flushed (l ++ pieces.flatMap Piece.output) := by
  have hzero : ∀ i < 1024, zeroed behind i = 0 := fun i hi => if_pos hi
  have hstart := ready_start (hzero 0 (by decide)) (pieces.flatMap Piece.args)
  have hbegin : IsString (fun j => format (0 + j)) (pieces.flatMap Piece.format) := by
    simpa only [Nat.zero_add] using hformat
  obtain ⟨t, hreaches, hready⟩ := pieces_reach float pieces hstart hbegin fun k hk =>
    hzero k (hk.trans_lt hsize)
  rw [List.nil_append] at hready
  obtain ⟨least, hrun⟩ := hreaches.ends (by rw [Nat.zero_add]; exact hformat.end_eq)
  refine ⟨least, fun fuel hfuel s l hs => ?_⟩
  have hmore : vsprintf float fuel (zeroed behind) format (pieces.flatMap Piece.args) =
      some (t.dest, (pieces.flatMap Piece.output).length) := by
    obtain ⟨more, rfl⟩ := Nat.exists_eq_add_of_le hfuel
    rw [vsprintf, Vsprintf.run_mono hrun more, Option.map_some, hready.ret]
  have hlength : ((pieces.flatMap Piece.output).length : ℤ) ≠ -1 := by omega
  rw [vprintf, hmore]
  dsimp only
  rw [if_neg hlength, ensures_bind]
  refine (Output.putsFrom_spec hs.filled hready.stored.string.rest hnonZero
    (hsize.trans (by decide))).mono fun r hr => ?_
  obtain ⟨-, hfilled, hsent⟩ := hr
  exact Output.flush_sent hfilled (by rw [hsent, hs.sent_eq])

theorem vprintf_name {memory : CString} {name : List UInt8} (hstring : IsString memory name)
    (hname : NonZero name) (hlength : name.length < 256) :
    ∃ least, ∀ fuel ≥ least, ∀ s l, Output.Flushed s l → Ensures (fun _ => 1024)
      (vprintf float fuel behind nameFormat [.pointer memory] s) fun r =>
        r.2.Flushed (l ++ (name ++ ['\n'.toUInt8])) := by
  have hstrlen : memory.strlen < 1024 := by
    rw [hstring.strlen_eq hname (hlength.trans (by decide))]
    omega
  have htext : memory.text = name := hstring.text_eq hname (hlength.trans (by decide))
  have houtput : ([.string memory hstrlen, .literal '\n'.toUInt8 (by decide)] : List Piece).flatMap
      Piece.output = name ++ ['\n'.toUInt8] := by
    rw [List.flatMap_cons, List.flatMap_singleton, Piece.output, Piece.output, htext]
  have hformat : IsString nameFormat (([.string memory hstrlen,
      .literal '\n'.toUInt8 (by decide)] : List Piece).flatMap Piece.format) := fun _ _ => rfl
  have hprint := vprintf_pieces float behind
    [.string memory hstrlen, .literal '\n'.toUInt8 (by decide)] hformat
  rw [houtput] at hprint
  refine hprint ?_ ?_
  · rw [List.length_append, List.length_singleton]
    omega
  · intro c hc
    rcases List.mem_append.mp hc with hc | hc
    · exact hname c hc
    · rw [List.mem_singleton.mp hc]
      decide

end Printing

/-! ### A run of the program -/

section Run
variable {pdt entry k : ℕ} (float : FloatToAscii) (behind : CString) {names : List (List UInt8)}
  {fs : FileSystem} {d : Opened}

/-- What `ls` is to put out. -/
def lines (names : List (List UInt8)) : List UInt8 := names.flatMap fun name => name ++ ['\n'.toUInt8]

/-- The loop puts out the names of all entries that are left. -/
theorem listFrom_spec (h : Enumerates fs names) (left : ℕ) (hleft : k + left = names.length)
    (hfd : OpenAt d.fd fs k) (hbuffer : Buffer d.mem pdt entry direntSize) :
    ∃ least, ∀ fuel ≥ least, ∀ passes > left, ∀ s l, Output.Flushed s l →
      Ensures (fun _ => 1024) (listFrom float behind pdt entry fuel passes d s) fun r =>
        r.2.Flushed (l ++ lines (names.drop k)) := by
  induction left generalizing k d with
  | zero =>
    obtain rfl : k = names.length := hleft
    obtain ⟨d', hend⟩ : ∃ d', readdir pdt entry d = pure (false, d') := readdir_end h hfd
    refine ⟨0, fun fuel _ passes hpasses s l hs => ?_⟩
    obtain ⟨passes, rfl⟩ := Nat.exists_eq_add_one.mpr hpasses
    rw [listFrom, hend, ensures_bind, ensures_pure]
    dsimp only
    rw [if_neg Bool.false_ne_true, ensures_pure, List.drop_length, lines, List.flatMap_nil,
      List.append_nil]
    exact hs
  | succ left ih =>
    have hk : k < names.length := by omega
    have hget := List.getElem?_eq_getElem hk
    obtain ⟨m, fd, hentry, hfd', hbuffer', hstring⟩ := readdir_entry h hget hfd hbuffer
    obtain ⟨least, hprint⟩ := vprintf_name float behind hstring
      (h.nonZero _ (List.getElem_mem hk)) (h.name_lt hget)
    obtain ⟨least', hrest⟩ := ih (d := ⟨m, fd⟩) (by omega) hfd' hbuffer'
    refine ⟨max least least', fun fuel hfuel passes hpasses s l hs => ?_⟩
    obtain ⟨passes, rfl⟩ := Nat.exists_eq_add_one.mpr (Nat.zero_lt_of_lt hpasses)
    rw [listFrom, hentry, ensures_bind, ensures_pure]
    dsimp only
    rw [if_pos rfl, ensures_bind]
    refine (hprint fuel (le_of_max_le_left hfuel) s l hs).mono fun r hr => ?_
    refine (hrest fuel (le_of_max_le_right hfuel) passes (Nat.lt_of_succ_lt_succ hpasses) r.2 _
      hr).mono fun r' hr' => ?_
    rw [List.drop_eq_getElem_cons hk, lines, List.flatMap_cons, ← List.append_assoc]
    exact hr'

/-- `ls` on a directory that is enumerated. -/
theorem main_spec (h : Enumerates fs names) {m : Memory} {fd : FileDescriptor} (hfd : OpenAt fd fs 0)
    (hbuffer : Buffer m pdt entry direntSize) {opendir : CString → Option FileDescriptor}
    {argv : List CString} (hopen : opendir (pathOf argv) = some fd) (buf : CString) :
    ∃ least, ∀ fuel ≥ least, Ensures (fun _ => 1024)
      (main float behind pdt entry fuel opendir argv m ⟨initStdio buf, []⟩) fun r =>
        r.1 = 0 ∧ r.2.written = lines names := by
  have hinit : Output.Flushed ⟨initStdio buf, []⟩ [] := ⟨⟨rfl, Nat.zero_le _⟩, rfl, rfl⟩
  obtain ⟨least, hlist⟩ := listFrom_spec float behind (d := ⟨m, fd⟩) h
    names.length (Nat.zero_add _) hfd hbuffer
  refine ⟨max least (names.length + 1), fun fuel hfuel => ?_⟩
  rw [main, hopen]
  dsimp only
  rw [ensures_bind]
  refine (hlist fuel (le_of_max_le_left hfuel) fuel (le_of_max_le_right hfuel) _ _ hinit).mono
    fun r hr => ?_
  rw [ensures_pure]
  exact ⟨rfl, hr.written⟩

end Run

/-! ### The directories of the file systems -/

/-- A directory, with what its file system reads of the memory behind its buffers, and for ext2 the
block group descriptors. -/
inductive Directory
  | ext2 (d : Ext2Directory) (tail : ℕ → UInt8) (bgd : ℕ)
  | fat (d : FatDirectory) (tail : ℕ → UInt8)

/-- What the kernel's `read` gets for the name that `fs->readdir` gives, or for its error. -/
def Answers (r : Except ℤ (List UInt8)) (a : ℤ × List UInt8 × ℕ × ℕ) : Prop :=
  match r with
  | .ok name => a.1 = 1 ∧ a.2.1 = name
  | .error e => a.1 = e

namespace Directory

/-- The operations of a mount are those of the file system that the directory is in. In the FAT
file system buffers keep what other calls have left there. -/
def Serves (fs : FileSystem) : Directory → Prop
  | ext2 d tail bgd => ∀ index r, d.readdir tail bgd index = some r →
      Answers (r.map fun entry => entry.1) (fs.readdir index)
  | fat d tail => ∀ index, ∃ ret io name : CString, ∀ fuel r,
      d.readdir tail ret io fuel index name = some r →
        Answers (r.map fun entry => entry.1.text) (fs.readdir index)

end Directory

/-- A name and an extension as they are shown: behind an extension come the spaces of its field. -/
def shownName (base extension : List UInt8) : List UInt8 :=
  if extension = [] then base
  else base ++ 46 :: (extension ++ List.replicate (3 - extension.length) 32)

/-- The two fields of an entry. -/
structure FatNamed (e : FatEntry) (name : List UInt8) : Prop where
  fields : ∃ base extension, name = shownName base extension ∧ Unpadded base ∧ Unpadded extension ∧
    Padded (fun i => e.name.getD i 0) 8 base ∧ Padded (fun i => e.ext.getD i 0) 3 extension
  name_length : e.name.length = 8
  ext_length : e.ext.length = 3

namespace Directory

/-- The directory holds the names, in this order, and nothing that its file system would show or
hide by mistake. -/
def Holds (names : List (List UInt8)) : Directory → Prop
  | ext2 d tail bgd => ∃ blocks records, d.WellFormed blocks records ∧
      (∀ k < blocks, d.Fits (d.blockNumber k)) ∧
      d.reached blocks records 0 = Ext2Directory.used blocks records ∧
      (∀ r ∈ Ext2Directory.used blocks records, (d.readInode tail bgd r.inode).1 = 0) ∧
      names = (Ext2Directory.used blocks records).map DirRecord.name
  | fat d _ => ∃ slots rest, d.Stores slots ∧ (∀ e ∈ slots, d.counts e → e.inUse) ∧
      (∀ e ∈ slots, e.inUse → d.SizeEnds e) ∧ names = [46] :: [46, 46] :: rest ∧
      List.Forall₂ FatNamed ((d.listing slots).drop 2) rest

end Directory

section Ext2
variable {d : Ext2Directory} {fs : FileSystem} {blocks bgd : ℕ} {records : ℕ → List DirRecord}
  {tail : ℕ → UInt8}

theorem used_name (hwf : d.WellFormed blocks records) {r : DirRecord}
    (hr : r ∈ Ext2Directory.used blocks records) : NonZero r.name := by
  obtain ⟨hmem, hused⟩ := List.mem_filter.mp hr
  obtain ⟨k, hk, hrecord⟩ := List.mem_flatMap.mp hmem
  exact fun c hc hcz => hwf.names k (List.mem_range.mp hk) r hrecord hused (hcz ▸ hc)

theorem ext2_enumerates (hserves : (Directory.ext2 d tail bgd).Serves fs)
    (hwf : d.WellFormed blocks records) (hfits : ∀ k < blocks, d.Fits (d.blockNumber k))
    (hreached : d.reached blocks records 0 = Ext2Directory.used blocks records)
    (hinodes : ∀ r ∈ Ext2Directory.used blocks records, (d.readInode tail bgd r.inode).1 = 0)
    (hlt : ((Ext2Directory.used blocks records).map DirRecord.name).length < word32) :
    Enumerates fs ((Ext2Directory.used blocks records).map DirRecord.name) where
  entry k name hk := by
    obtain ⟨r, hr, rfl⟩ := Option.map_eq_some_iff.mp ((List.getElem?_map ..).symm.trans hk)
    have hmem := List.mem_of_getElem? hr
    have hread := Ext2Directory.readdir_eq hwf hfits tail bgd k
    have htake : r.name.takeWhile (· ≠ 0) = r.name :=
      List.takeWhile_eq_self_iff.mpr fun c hc => decide_eq_true (used_name hwf hmem c hc)
    rw [hreached, hr] at hread
    dsimp only at hread
    rw [Ext2Directory.entryResult, if_pos (hinodes r hmem), htake] at hread
    exact hserves k _ hread
  last := by
    have hread := Ext2Directory.readdir_eq hwf hfits tail bgd (Ext2Directory.used blocks records).length
    rw [hreached, List.getElem?_eq_none le_rfl] at hread
    have hanswer : (fs.readdir _).1 = -Vfs.enoent := hserves _ _ hread
    rw [List.length_map, hanswer]
    decide
  nonZero name hname := by
    obtain ⟨r, hr, rfl⟩ := List.mem_map.mp hname
    exact used_name hwf hr
  length_lt := hlt

end Ext2

section Fat
variable {d : FatDirectory} {fs : FileSystem} {slots : List FatEntry} {e : FatEntry}
  {name : List UInt8} {tail : ℕ → UInt8} {k : ℕ}

theorem FatNamed.stored (h : FatNamed e name) (tail : ℕ → UInt8) (ret buffer : CString) :
    (e.storeName tail ret buffer).IsString name ∧ NonZero name ∧ name.length < 256 := by
  obtain ⟨⟨base, extension, rfl, hbase, hextension, hname, hext⟩, hname8, hext3⟩ := h
  have hfirst : Padded (e.chars tail) 8 base := by
    refine ⟨hname.length_le, fun i hi => ?_⟩
    rw [← hname.eq i hi, FatEntry.chars, List.getD_append _ _ _ _ (by rwa [hname8]),
      List.getD_eq_getElem _ _ (by rwa [hname8]), List.getD_eq_getElem _ _ (by rwa [hname8])]
  have hsecond : Padded (fun i => e.chars tail (8 + i)) 3 extension := by
    refine ⟨hext.length_le, fun i hi => ?_⟩
    rw [← hext.eq i hi, FatEntry.chars, List.getD_append_right _ _ _ _ (by rw [hname8]; omega),
      hname8, Nat.add_sub_cancel_left, List.getD_eq_getElem _ _ (by rwa [hext3]),
      List.getD_eq_getElem _ _ (by rwa [hext3])]
  have hnonZero : NonZero (shownName base extension) := by
    unfold shownName
    split_ifs
    · exact hbase.nonZero
    · intro c hc
      simp only [List.mem_append, List.mem_cons, List.mem_replicate] at hc
      rcases hc with hc | rfl | hc | ⟨-, rfl⟩
      · exact hbase.nonZero c hc
      · decide
      · exact hextension.nonZero c hc
      · decide
  have hlength : (shownName base extension).length ≤ 12 := by
    have h1 := hname.length_le
    have h2 := hext.length_le
    unfold shownName
    split_ifs
    · omega
    · simp only [List.length_append, List.length_cons, List.length_replicate]
      omega
  have hstring := dos83toStr_isString ret hfirst hbase hsecond hextension
  exact ⟨strncpy_isString buffer hstring hnonZero (hlength.trans (by decide)) (by decide), hnonZero,
    hlength.trans_lt (by decide)⟩

/-- The first two entries are there. -/
theorem listing_length (h : d.Stores slots) : 2 ≤ (d.listing slots).length := by
  unfold FatDirectory.listing
  split_ifs with hroot
  · rw [List.length_append]
    exact Nat.le_add_right _ _
  · obtain ⟨-, -, first, second, rest, rfl, hfirst, hsecond⟩ := h.sub hroot
    rw [List.nil_append, List.filter_cons_of_pos hfirst.inUse, List.filter_cons_of_pos hsecond.inUse]
    simp

theorem shown_eq_listing (hin : ∀ e ∈ slots, d.counts e → e.inUse) :
    d.shown slots = d.listing slots := by
  rw [FatDirectory.shown, FatDirectory.listing]
  congr 1
  refine List.filter_congr fun e he => ?_
  rw [Bool.eq_iff_iff]
  exact ⟨hin e he, FatDirectory.counts_of_inUse⟩

theorem listing_sizeEnds (hends : ∀ e ∈ slots, e.inUse → d.SizeEnds e) (he : e ∈ d.listing slots) :
    d.SizeEnds e := by
  rcases List.mem_append.mp he with hself | hrecord
  · split_ifs at hself with hroot
    · obtain rfl : e = d.entry := by simpa using hself
      exact fun _ => .inl (d.cluster_eq.trans hroot)
    · exact absurd hself List.not_mem_nil
  · exact hends e (List.mem_filter.mp hrecord).1 (List.mem_filter.mp hrecord).2

/-- An entry of the directory comes with the name that is stored for it. -/
theorem fat_entry (hserves : (Directory.fat d tail).Serves fs) (hstores : d.Stores slots)
    (hin : ∀ e ∈ slots, d.counts e → e.inUse) (hends : ∀ e ∈ slots, e.inUse → d.SizeEnds e)
    (he : (d.listing slots)[k]? = some e) (hname : NonZero name) (hshort : name.length < 256)
    (hstored : ∀ ret buffer stored, FatDirectory.NameStored tail ret buffer k e stored →
      stored.IsString name) : (fs.readdir k).1 = 1 ∧ (fs.readdir k).2.1 = name := by
  obtain ⟨ret, io, buffer, hanswer⟩ := hserves k
  obtain ⟨least, hsome⟩ :=
    FatDirectory.actualSize_isSome.mpr (listing_sizeEnds hends (List.mem_of_getElem? he))
  obtain ⟨size, hsize⟩ :=
    Option.isSome_iff_exists.mp (hsome (max least (slots.length + 1)) (le_max_left _ _))
  obtain ⟨stored, hplace, hread⟩ := hstores.readdir_some ((shown_eq_listing hin).symm ▸ he)
    (le_max_right least (slots.length + 1)) tail ret io buffer
  rw [hsize] at hread
  obtain ⟨hret, htext⟩ := hanswer _ _ hread
  refine ⟨hret, htext.trans ?_⟩
  exact (hstored ret buffer stored hplace).text_eq hname (hshort.trans (by decide))

theorem fat_enumerates {rest : List (List UInt8)} (hserves : (Directory.fat d tail).Serves fs)
    (hstores : d.Stores slots) (hin : ∀ e ∈ slots, d.counts e → e.inUse)
    (hends : ∀ e ∈ slots, e.inUse → d.SizeEnds e)
    (hnamed : List.Forall₂ FatNamed ((d.listing slots).drop 2) rest)
    (hlt : ([46] :: [46, 46] :: rest).length < word32) :
    Enumerates fs ([46] :: [46, 46] :: rest) := by
  have htwo := listing_length hstores
  have hlength := hnamed.length_eq
  rw [List.length_drop] at hlength
  refine ⟨fun k name hk => ?_, ?_, ?_, hlt⟩
  · match k with
    | 0 =>
      obtain rfl := Option.some.inj hk
      exact fat_entry hserves hstores hin hends (List.getElem?_eq_getElem (by omega)) (by decide)
        (by decide) fun _ _ _ hstored => hstored
    | 1 =>
      obtain rfl := Option.some.inj hk
      exact fat_entry hserves hstores hin hends (List.getElem?_eq_getElem (by omega)) (by decide)
        (by decide) fun _ _ _ hstored => hstored
    | k + 2 =>
      obtain ⟨hlast, rfl⟩ := List.getElem?_eq_some_iff.mp (show rest[k]? = some name from hk)
      have hnext : k + 2 < (d.listing slots).length := by omega
      have hentry : FatNamed (d.listing slots)[k + 2] rest[k] := by
        have hpair := hnamed.get (i := k) (by rw [List.length_drop]; omega) hlast
        simpa [Nat.add_comm 2 k] using hpair
      obtain ⟨-, hnonZero, hshort⟩ := hentry.stored tail (fun _ => 0) fun _ => 0
      refine fat_entry hserves hstores hin hends (List.getElem?_eq_getElem hnext) hnonZero hshort
        fun ret buffer stored hplace => ?_
      rw [FatDirectory.NameStored, if_neg (by omega), if_neg (by omega)] at hplace
      rw [hplace]
      exact (hentry.stored tail ret buffer).1
  · obtain ⟨ret, io, buffer, hanswer⟩ := hserves ([46] :: [46, 46] :: rest).length
    have hnone : (d.listing slots)[([46] :: [46, 46] :: rest).length]? = none := by
      apply List.getElem?_eq_none
      simp only [List.length_cons]
      omega
    have hread := hstores.readdir_none ((shown_eq_listing hin).symm ▸ hnone)
      (Nat.lt_succ_self slots.length) tail ret io buffer
    have herror : (fs.readdir _).1 = -Vfs.enoent := hanswer _ _ hread
    rw [herror]
    decide
  · intro name hname
    rcases List.mem_cons.mp hname with rfl | hname
    · decide
    rcases List.mem_cons.mp hname with rfl | hname
    · decide
    obtain ⟨k, hk, rfl⟩ := List.getElem_of_mem hname
    have hpair := hnamed.get (i := k) (by rw [List.length_drop]; omega) hk
    exact (hpair.stored tail (fun _ => 0) fun _ => 0).2.1

end Fat

theorem Directory.enumerates {dir : Directory} {names : List (List UInt8)} {fs : FileSystem}
    (hserves : dir.Serves fs) (hholds : dir.Holds names) (hlt : names.length < word32) :
    Enumerates fs names := by
  cases dir with
  | ext2 d tail bgd =>
    obtain ⟨blocks, records, hwf, hfits, hreached, hinodes, rfl⟩ := hholds
    exact ext2_enumerates hserves hwf hfits hreached hinodes hlt
  | fat d tail =>
    obtain ⟨slots, rest, hstores, hin, hends, rfl, hnamed⟩ := hholds
    exact fat_enumerates hserves hstores hin hends hnamed hlt

/-- `ls` puts out the names of a directory, one on each line, in the order of the drive. -/
theorem ls_lists_directory {dir : Directory} {names : List (List UInt8)} {m : Memory}
    {fd : FileDescriptor} {pdt entry : ℕ} {opendir : CString → Option FileDescriptor}
    {argv : List CString} (hholds : dir.Holds names) (hserves : dir.Serves fd.fs)
    (hlt : names.length < word32) (hfd : OpenAt fd fd.fs 0) (hbuffer : Buffer m pdt entry direntSize)
    (hopen : opendir (pathOf argv) = some fd) (float : FloatToAscii) (behind buf : CString) :
    ∃ least, ∀ fuel ≥ least, Ensures (fun _ => 1024)
      (main float behind pdt entry fuel opendir argv m ⟨initStdio buf, []⟩) fun r =>
        r.1 = 0 ∧ r.2.written = lines names :=
  main_spec float behind (Directory.enumerates hserves hholds hlt) hfd hbuffer hopen buf

open Ext2Directory (twoBlocks twoBlocksRecords twoBlocks_wellFormed used)

theorem twoBlocks_reached : twoBlocks.reached 2 twoBlocksRecords 0 = used 2 twoBlocksRecords := by
  decide +kernel

theorem twoBlocks_inodes :
    ∀ e ∈ used 2 twoBlocksRecords, (twoBlocks.readInode (fun _ => 0xff) 0 e.inode).1 = 0 := by
  decide +kernel

def exampleNames : List (List UInt8) := [[46], [46, 46], [97, 98], [99]]

theorem twoBlocks_holds : (Directory.ext2 twoBlocks (fun _ => 0xff) 0).Holds exampleNames :=
  ⟨2, twoBlocksRecords, twoBlocks_wellFormed, by decide, twoBlocks_reached, twoBlocks_inodes, rfl⟩

/-- A mount with this directory, and a descriptor of it. -/
def fsExample : FileSystem where
  read _ _ := (0, [])
  readdir index := exampleNames[index]?.elim (-Vfs.enoent, [], 0, 0) fun name => (1, name, 2, 0x4000)
  read_le _ _ := Nat.zero_le _
  name_lt index := by
    cases h : exampleNames[index]? with
    | none => decide
    | some name =>
      have hshort : ∀ name ∈ exampleNames, name.length < 256 := by decide
      exact hshort name (List.mem_of_getElem? h)

def fdExample : FileDescriptor :=
  { FileDescriptor.zero with used := true, type := .ifdir, fs := fsExample, accessRead := true }

theorem fsExample_serves :
    (Directory.ext2 twoBlocks (fun _ => 0xff) 0).Serves fdExample.fs := by
  intro index r hread
  rw [Ext2Directory.readdir_eq twoBlocks_wellFormed (by decide), twoBlocks_reached] at hread
  have hnames : exampleNames[index]? =
      (used 2 twoBlocksRecords)[index]?.map DirRecord.name := by
    rw [← List.getElem?_map]
    rfl
  have hreaddir : fdExample.fs.readdir index = exampleNames[index]?.elim (-Vfs.enoent, [], 0, 0)
      fun name => (1, name, 2, 0x4000) := rfl
  rw [hreaddir, hnames]
  cases h : (used 2 twoBlocksRecords)[index]? with
  | none =>
    rw [h] at hread
    obtain rfl := Option.some.inj hread
    rfl
  | some e =>
    have he := List.mem_of_getElem? h
    have hshown : ∀ e ∈ used 2 twoBlocksRecords, e.name.takeWhile (· ≠ 0) = e.name := by decide
    have hentry : some (twoBlocks.entryResult (fun _ => 0xff) 0 e) = some r := by rwa [h] at hread
    rw [Ext2Directory.entryResult, if_pos (twoBlocks_inodes e he), hshown e he] at hentry
    obtain rfl := Option.some.inj hentry
    exact ⟨rfl, rfl⟩

theorem buffer_example : Buffer (twoPageMemory 0x423000) 0x420000 0x100 direntSize where
  directory := ⟨by decide, by decide⟩
  lt := by decide
  onePage := by decide
  mapped := ⟨_, rfl, by decide, by decide⟩

/-- The entries `.`, `..`, `ab` and `c`; no format has a number with a point. -/
theorem ls_lists_two_blocks : ∃ least, ∀ fuel ≥ least,
    Ensures (fun _ => 1024) (main ⟨fun _ s _ => s, fun _ s _ => s⟩ (fun _ => 0) 0x420000 0x100 fuel
      (fun _ => some fdExample) [dot] (twoPageMemory 0x423000) ⟨initStdio fun _ => 0, []⟩) fun r =>
        r.1 = 0 ∧ r.2.written = [46, 10, 46, 46, 10, 97, 98, 10, 99, 10] :=
  ls_lists_directory twoBlocks_holds fsExample_serves (by decide) ⟨rfl, rfl, rfl, rfl, rfl⟩
    buffer_example rfl ⟨fun _ s _ => s, fun _ s _ => s⟩ _ _

end DosKernel.Ls
