import DosKernel.Paging.Isolation

/-! `read` on an open descriptor and the system call over it. The system call
translates the user pointer once and hands the result to `read` as one flat
pointer; `read` stores what the descriptor delivers from there on. -/

namespace DosKernel

open Lib

/-- The error numbers that `read` returns. -/
def eacces : ℤ := 13

def ebadfd : ℤ := 77

/-- `enum FileTypes`; `unset` is the value of zeroed memory. -/
inductive FileType
  | unset
  | ifblk
  | ifchr
  | ififo
  | ifreg
  | ifdir
  | iflnk
  | ifsock
  deriving DecidableEq

/-- The input side of `tty_t`. -/
structure Tty where
  inBuffer : ℕ → UInt8
  inBufferSize : ℕ
  inBufferStart : ℕ
  inBufferEnd : ℕ
  canon : Bool
  size_lt : inBufferSize < 2147483648
  start_le : inBufferStart ≤ inBufferSize
  end_le : inBufferEnd ≤ inBufferSize

/-- The loop of `tty_canon_has_eol`. -/
def hasEol (t : Tty) : (fuel i : ℕ) → Bool
  | 0, _ => false
  | fuel + 1, i =>
    if i = t.inBufferEnd then false
    else
      let i' := if i = t.inBufferSize then 0 else i
      if t.inBuffer i' = 10 then true else hasEol t fuel (i' + 1)

def ttyCanonHasEol (t : Tty) : Bool := hasEol t (2 * t.inBufferSize + 2) t.inBufferStart

/-- The loop of `tty_read`: the characters stored and the new start index. A
negative length is a large one, since it only counts down. -/
def ttyReadFrom (t : Tty) : (fuel len start : ℕ) → List UInt8 × ℕ
  | 0, _, start => ([], start)
  | fuel + 1, len, start =>
    if len = 0 ∨ start = t.inBufferEnd then ([], start)
    else
      let start' := if start = t.inBufferSize then 0 else start
      if start' = t.inBufferEnd then ([], start')
      else
        let r := ttyReadFrom t fuel ((len + word32 - 1) % word32) (start' + 1)
        (t.inBuffer start' :: r.1, r.2)

theorem ttyReadFrom_start_le (t : Tty) (fuel : ℕ) : ∀ {len start : ℕ}, start ≤ t.inBufferSize →
    (ttyReadFrom t fuel len start).2 ≤ t.inBufferSize := by
  have hend := t.end_le
  induction fuel with
  | zero => intro len start h; exact h
  | succ fuel ih =>
    intro len start h
    simp only [ttyReadFrom]
    split_ifs with h1 h2 h3
    · exact h
    · exact Nat.zero_le _
    · exact ih (by omega)
    · exact h
    · exact ih (by omega)

theorem ttyReadFrom_length_le (t : Tty) (fuel : ℕ) : ∀ len start : ℕ,
    (ttyReadFrom t fuel len start).1.length ≤ fuel := by
  induction fuel with
  | zero => intro len start; exact le_rfl
  | succ fuel ih =>
    intro len start
    simp only [ttyReadFrom]
    split_ifs
    · exact Nat.zero_le _
    · exact Nat.zero_le _
    · exact Nat.succ_le_succ (ih _ _)
    · exact Nat.zero_le _
    · exact Nat.succ_le_succ (ih _ _)

/-- `tty_read`: the characters stored and the terminal afterwards. -/
def ttyRead (t : Tty) (len : ℕ) : List UInt8 × Tty :=
  let r := ttyReadFrom t (2 * t.inBufferSize + 2) len t.inBufferStart
  (r.1, { t with inBufferStart := r.2, start_le := ttyReadFrom_start_le t _ t.start_le })

theorem ttyRead_length_le (t : Tty) (len : ℕ) : (ttyRead t len).1.length ≤ word32 := by
  have h := ttyReadFrom_length_le t (2 * t.inBufferSize + 2) len t.inBufferStart
  have hsize := t.size_lt
  simp only [ttyRead, word32]
  omega

/-- The characters that wait between an index and `in_buffer_end`, also over the end of the
buffer. -/
def Tty.waitingFrom (t : Tty) (start : ℕ) : List UInt8 :=
  (if start ≤ t.inBufferEnd then List.range' start (t.inBufferEnd - start)
    else List.range' start (t.inBufferSize - start) ++ List.range' 0 t.inBufferEnd).map t.inBuffer

def Tty.waiting (t : Tty) : List UInt8 := t.waitingFrom t.inBufferStart

theorem Tty.waitingFrom_end (t : Tty) : t.waitingFrom t.inBufferEnd = [] := by simp [waitingFrom]

/-- The buffer ends in front of the character, or the character is the one at the index. -/
theorem Tty.waitingFrom_next (t : Tty) {start start' : ℕ} (h : start ≤ t.inBufferSize)
    (hstart : start' = if start = t.inBufferSize then 0 else start) (hne : start ≠ t.inBufferEnd)
    (hne' : start' ≠ t.inBufferEnd) :
    t.waitingFrom start = t.inBuffer start' :: t.waitingFrom (start' + 1) := by
  have hend := t.end_le
  have hhead : ∀ a n, 0 < n → List.range' a n = a :: List.range' (a + 1) (n - 1) := by
    intro a n hn
    obtain ⟨n, rfl⟩ := Nat.exists_eq_succ_of_ne_zero hn.ne'
    exact List.range'_succ
  unfold waitingFrom
  split_ifs at hstart with hwrap
  · subst hstart
    rw [if_neg (by omega), if_pos (by omega), hwrap, Nat.sub_self, List.range'_zero, List.nil_append,
      hhead 0 t.inBufferEnd (by omega), List.map_cons]
  · subst hstart
    by_cases horder : start' ≤ t.inBufferEnd
    · rw [if_pos horder, if_pos (by omega), hhead start' _ (by omega), List.map_cons, Nat.sub_sub]
    · rw [if_neg horder, if_neg (by omega), hhead start' _ (by omega), List.cons_append,
        List.map_cons, Nat.sub_sub]

/-- Nothing waits when the index has been wrapped around to the end. -/
theorem Tty.waitingFrom_wrapped (t : Tty) {start : ℕ} (h : start = t.inBufferSize)
    (hend : t.inBufferEnd = 0) : t.waitingFrom start = [] := by
  unfold waitingFrom
  subst h
  split_ifs with hle
  · have hzero : t.inBufferSize = 0 := by omega
    simp [hend, hzero]
  · simp [hend]

theorem Tty.waitingFrom_length_le (t : Tty) {start : ℕ} (h : start ≤ t.inBufferSize) :
    (t.waitingFrom start).length ≤ 2 * t.inBufferSize := by
  have hend := t.end_le
  unfold waitingFrom
  split_ifs <;> simp <;> omega

/-- The loop of `tty_read` takes the characters that wait, as many as there is room for. -/
theorem ttyReadFrom_waiting (t : Tty) (fuel : ℕ) : ∀ {len start : ℕ}, len < word32 →
    start ≤ t.inBufferSize → (t.waitingFrom start).length ≤ fuel →
    (ttyReadFrom t fuel len start).1 = (t.waitingFrom start).take len := by
  have hend := t.end_le
  induction fuel with
  | zero =>
    intro len start _ _ hfuel
    rw [List.length_eq_zero_iff.mp (Nat.le_zero.mp hfuel), List.take_nil]
    rfl
  | succ fuel ih =>
    intro len start hlen hstart hfuel
    rw [ttyReadFrom]
    by_cases hstop : len = 0 ∨ start = t.inBufferEnd
    · rw [if_pos hstop]
      rcases hstop with rfl | rfl
      · rfl
      · rw [t.waitingFrom_end, List.take_nil]
    rw [if_neg hstop]
    rw [not_or] at hstop
    dsimp only
    generalize hstart' : (if start = t.inBufferSize then 0 else start) = start'
    by_cases hwrap : start' = t.inBufferEnd
    · have hsize : start = t.inBufferSize ∧ t.inBufferEnd = 0 := by
        split_ifs at hstart' <;> omega
      rw [if_pos hwrap, t.waitingFrom_wrapped hsize.1 hsize.2, List.take_nil]
    · have hnext := t.waitingFrom_next hstart hstart'.symm hstop.2 hwrap
      have hlt : start' + 1 ≤ t.inBufferSize := by
        split_ifs at hstart' <;> omega
      rw [hnext, List.length_cons] at hfuel
      have hlen' : (len + word32 - 1) % word32 = len - 1 := by
        rw [word32] at *
        omega
      obtain ⟨len, rfl⟩ := Nat.exists_eq_succ_of_ne_zero hstop.1
      rw [if_neg hwrap, hnext, hlen', List.take_succ_cons]
      exact congrArg _ (ih (by omega) hlt (by omega))

theorem ttyRead_waiting (t : Tty) {len : ℕ} (hlen : len < word32) :
    (ttyRead t len).1 = t.waiting.take len := by
  have hlength := t.waitingFrom_length_le t.start_le
  exact ttyReadFrom_waiting t _ hlen t.start_le (by omega)

/-- The operations of a mounted file system on one file, with what they store: a
read fills a prefix of the buffer, a directory read gives a name of less than 256
characters with the inode number and mode of the entry. -/
structure FileSystem where
  read : (count offset : ℕ) → ℤ × List UInt8
  readdir : (index : ℕ) → ℤ × List UInt8 × ℕ × ℕ
  read_le : ∀ count offset, (read count offset).2.length ≤ count
  name_lt : ∀ index, (readdir index).2.1.length < 256

/-- `file_descriptor`. Of a framebuffer only the result of writing to it is used. -/
structure FileDescriptor where
  used : Bool
  type : FileType
  fs : FileSystem
  tty : Option Tty
  fb : Option ((size offset : ℕ) → ℤ)
  offset : ℕ
  accessRead : Bool

def FileDescriptor.zero : FileDescriptor where
  used := false
  type := .unset
  fs := ⟨fun _ _ => (0, []), fun _ => (0, [], 0, 0), by simp, by simp⟩
  tty := none
  fb := none
  offset := 0
  accessRead := false

/-- The `n` low bytes of a number, low byte first. -/
def leBytes (n v : ℕ) : List UInt8 := (List.range n).map fun k => UInt8.ofNat (v / 256 ^ k)

/-- What `read` stores for a directory entry: `d_ino`, `d_reclen`, `d_type` and
`d_name` of `struct dirent`, with their offsets; `d_off` is left alone. -/
def direntStores (name : List UInt8) (ino mode : ℕ) : List (UInt8 × ℕ) :=
  (leBytes 4 ino).zipIdx 0 ++ ((leBytes 2 (268 - 256 + name.length + 1)).zipIdx 8 ++
    ((leBytes 1 mode).zipIdx 10 ++ (name ++ [0]).zipIdx 11))

/-- `if (ret > 0) fd->offset += ret`. -/
def FileDescriptor.advance (fd : FileDescriptor) (ret : ℤ) : FileDescriptor :=
  if 0 < ret then { fd with offset := (fd.offset + ret.toNat) % word32 } else fd

/-- `read`: the result, the descriptor afterwards and the bytes stored, each with
its offset from the buffer. `none` while a canonical terminal has no line yet. -/
def read (fd : FileDescriptor) (size : ℕ) : Option (ℤ × FileDescriptor × List (UInt8 × ℕ)) :=
  if fd.accessRead = false then some (-eacces, fd, [])
  else if fd.used = false then some (-ebadfd, fd, [])
  else
    match fd.type, fd.tty, fd.fb with
    | .ifchr, some t, _ =>
      if t.canon = true ∧ ttyCanonHasEol t = false then none
      else
        let r := ttyRead t size
        some (r.1.length, { fd.advance r.1.length with tty := some r.2 }, r.1.zipIdx 0)
    | .ifchr, none, some fb =>
      some (fb size fd.offset, fd.advance (fb size fd.offset), [])
    | .ifreg, _, _ =>
      let r := fd.fs.read size fd.offset
      some (r.1, fd.advance r.1, r.2.zipIdx 0)
    | .ifdir, _, _ =>
      let r := fd.fs.readdir fd.offset
      if 0 ≤ r.1 then
        some (r.1, { fd with offset := (fd.offset + 1) % word32 },
          direntStores r.2.1 r.2.2.1 r.2.2.2)
      else some (r.1, fd, [])
    | _, _, _ => some (-ebadfd, fd, [])

/-- The memory after the bytes were stored at their offsets from `addr`. -/
def storeAll (m : Memory) (addr : ℕ) (ts : List (UInt8 × ℕ)) : Memory :=
  ts.foldl (fun m t => Function.update m ((addr + t.2) % word32) t.1) m

/-- The data transfer of `syscall_read` by a process with page directory `pdt`. -/
def syscallRead (m : Memory) (pdt : ℕ) (fd : FileDescriptor) (buf count : ℕ) :
    Option (ℤ × FileDescriptor × Memory) :=
  (read fd count).map fun r =>
    (r.1, r.2.1, storeAll m (mmuGetPhysicalAddressPdt m buf pdt) r.2.2)

/-- The page of `v` is present and user-accessible, on both levels. -/
def userAccessible (m : Memory) (pdt v : ℕ) : Bool :=
  (entryAt m (pdt + 4 * pdIndex v)).user && (pageOf m pdt v).any PageEntry.user

/-- The physical byte `x` backs a present user byte of `[buf, buf + count)`. -/
def Backs (m : Memory) (pdt buf count x : ℕ) : Prop :=
  ∃ v, buf ≤ v ∧ v < buf + count ∧ v < word32 ∧ userAccessible m pdt v = true ∧
    mmuGetPhysicalAddressPdt m v pdt = x

/-! ### What is stored -/

theorem map_snd_zipIdx (bs : List UInt8) (o : ℕ) :
    (bs.zipIdx o).map Prod.snd = List.range' o bs.length := by
  rw [List.zipIdx_eq_zip_range', List.map_snd_zip (by simp)]

/-- Offsets of one transfer: no two are equal, and all are 32-bit. -/
structure Offsets (ts : List (UInt8 × ℕ)) : Prop where
  nodup : (ts.map Prod.snd).Nodup
  lt : ∀ t ∈ ts, t.2 < word32

theorem offsets_zipIdx {bs : List UInt8} (h : bs.length ≤ word32) : Offsets (bs.zipIdx 0) := by
  refine ⟨by rw [map_snd_zipIdx]; exact List.nodup_range', fun t ht => ?_⟩
  have hmem := List.mem_map_of_mem (f := Prod.snd) ht
  rw [map_snd_zipIdx, List.mem_range'_1] at hmem
  omega

theorem offsets_dirent {name : List UInt8} (h : name.length < 256) (ino mode : ℕ) :
    Offsets (direntStores name ino mode) := by
  have hmap : (direntStores name ino mode).map Prod.snd =
      List.range' 0 4 ++ (List.range' 8 2 ++ (List.range' 10 1 ++ List.range' 11 (name.length + 1))) := by
    simp only [direntStores, List.map_append, map_snd_zipIdx, leBytes, List.length_map,
      List.length_range, List.length_append, List.length_singleton]
  refine ⟨?_, fun t ht => ?_⟩
  · rw [hmap]
    simp only [List.nodup_append, List.mem_append, List.mem_range'_1]
    refine ⟨List.nodup_range', ⟨List.nodup_range', ⟨List.nodup_range', List.nodup_range', ?_⟩, ?_⟩, ?_⟩
    all_goals
      intro a ha b hb
      omega
  · have hmem := List.mem_map_of_mem (f := Prod.snd) ht
    rw [hmap] at hmem
    simp only [List.mem_append, List.mem_range'_1] at hmem
    simp only [word32]
    omega

/-- Every transfer of `read` has such offsets. -/
theorem read_offsets {fd fd' : FileDescriptor} {size : ℕ} {ret : ℤ} {ts : List (UInt8 × ℕ)}
    (hsize : size < word32) (h : read fd size = some (ret, fd', ts)) : Offsets ts := by
  have hnil : Offsets [] := ⟨List.nodup_nil, by simp⟩
  unfold read at h
  split_ifs at h
  · cases h; exact hnil
  · cases h; exact hnil
  split at h
  · split_ifs at h
    cases h
    exact offsets_zipIdx (ttyRead_length_le _ _)
  · cases h; exact hnil
  · cases h
    exact offsets_zipIdx ((fd.fs.read_le _ _).trans hsize.le)
  · dsimp only at h
    split_ifs at h
    · cases h
      exact offsets_dirent (fd.fs.name_lt _) _ _
    · cases h; exact hnil
  · cases h; exact hnil

section StoreAll
variable {m : Memory} {addr : ℕ}

theorem storeAll_of_not_mem (ts : List (UInt8 × ℕ)) {x : ℕ}
    (hx : ∀ t ∈ ts, x ≠ (addr + t.2) % word32) (m : Memory) : storeAll m addr ts x = m x := by
  induction ts generalizing m with
  | nil => rfl
  | cons t ts ih =>
    rw [storeAll, List.foldl_cons, ← storeAll, ih fun u hu => hx u (List.mem_cons_of_mem t hu),
      Function.update_of_ne (hx t List.mem_cons_self)]

theorem storeAll_of_mem {ts : List (UInt8 × ℕ)} (hts : Offsets ts) {t : UInt8 × ℕ} (ht : t ∈ ts)
    (m : Memory) : storeAll m addr ts ((addr + t.2) % word32) = t.1 := by
  induction ts generalizing m with
  | nil => cases ht
  | cons u ts ih =>
    have hnd := hts.nodup
    rw [List.map_cons, List.nodup_cons] at hnd
    have hrest : Offsets ts := ⟨hnd.2, fun w hw => hts.lt w (List.mem_cons_of_mem u hw)⟩
    rw [storeAll, List.foldl_cons, ← storeAll]
    rcases List.mem_cons.mp ht with rfl | ht
    · rw [storeAll_of_not_mem ts fun w hw heq => ?_, Function.update_self]
      have h1 := hts.lt t List.mem_cons_self
      have h2 := hrest.lt w hw
      have hne : t.2 ≠ w.2 := fun h => hnd.1 (h ▸ List.mem_map_of_mem hw)
      simp only [word32] at *
      omega
    · exact ih hrest ht _

end StoreAll

/-! ### Isolation of the transfer -/

/-- The transfer changes only bytes that back the user buffer. -/
def Contained (m m' : Memory) (pdt buf count : ℕ) : Prop :=
  ∀ x, m' x ≠ m x → Backs m pdt buf count x

/-- The bytes that are due to a reader of `size` bytes, each with its offset in the buffer: the
characters that wait in a terminal, the bytes of a file, or the next entry of a directory,
whatever its length. -/
def FileDescriptor.due (fd : FileDescriptor) (size : ℕ) : List (UInt8 × ℕ) :=
  if fd.accessRead = false ∨ fd.used = false then []
  else
    match fd.type, fd.tty with
    | .ifchr, some t => (t.waiting.take size).zipIdx
    | .ifreg, _ => (fd.fs.read size fd.offset).2.zipIdx
    | .ifdir, _ =>
      let r := fd.fs.readdir fd.offset
      if 0 ≤ r.1 then direntStores r.2.1 r.2.2.1 r.2.2.2 else []
    | _, _ => []

theorem read_due {fd fd' : FileDescriptor} {size : ℕ} {ret : ℤ} {ts : List (UInt8 × ℕ)}
    (hsize : size < word32) (h : read fd size = some (ret, fd', ts)) : ts = fd.due size := by
  unfold read at h
  unfold FileDescriptor.due
  split_ifs at h with haccess hused
  · cases h
    rw [if_pos (.inl haccess)]
  · cases h
    rw [if_pos (.inr hused)]
  rw [if_neg (not_or.mpr ⟨haccess, hused⟩)]
  split at h
  next _ t htype htty =>
    split_ifs at h
    cases h
    rw [htype, htty, ttyRead_waiting t hsize]
  next htype htty hfb =>
    cases h
    rw [htype, htty]
  next htype =>
    cases h
    rw [htype]
  next htype =>
    rw [htype]
    dsimp only at h ⊢
    split_ifs at h ⊢ <;> (cases h; rfl)
  next hreg hdir htty _ =>
    cases h
    split
    next htype htty' => exact absurd htty' (htty _ htype)
    next htype => exact absurd htype hreg
    next htype => exact absurd htype hdir
    next => rfl

/-- The page `j` of the address space is user-accessible and has the frame `f`. -/
def UserPage (m : Memory) (pdt j f : ℕ) : Prop :=
  userAccessible m pdt (4096 * j) = true ∧ (pageOf m pdt (4096 * j)).map PageEntry.frame = some f

/-- Where the flat pointer leads for the byte `o` of a transfer: frames are counted from that of
`buf` on, whatever the pages behind it map, and from the frame 0 on if `buf` is not mapped. -/
def targetFrame (m : Memory) (pdt buf o : ℕ) : ℕ :=
  (pageOf m pdt buf).elim (o / 4096 * 4096 % word32) fun e =>
    (e.frame + (pageOffset buf + o) / 4096 * 4096) % word32

/-- The place in this frame. -/
def targetOffset (m : Memory) (pdt buf o : ℕ) : ℕ :=
  (pageOf m pdt buf).elim (o % 4096) fun _ => (pageOffset buf + o) % 4096

/-- A page of the buffer has the frame that the flat pointer leads to, and the place in it is one
of the buffer. -/
def Lands (m : Memory) (pdt buf count o : ℕ) : Prop :=
  ∃ j, UserPage m pdt j (targetFrame m pdt buf o) ∧ 4096 * j + targetOffset m pdt buf o < word32 ∧
    buf ≤ 4096 * j + targetOffset m pdt buf o ∧ 4096 * j + targetOffset m pdt buf o < buf + count

/-- Each of the bytes lands in the buffer, or is there already. -/
def DueInside (m : Memory) (pdt buf count : ℕ) (ds : List (UInt8 × ℕ)) : Prop :=
  ∀ d ∈ ds, Lands m pdt buf count d.2 ∨
    m (targetFrame m pdt buf d.2 + targetOffset m pdt buf d.2) = d.1

/-- The first `n` bytes of the buffer lie in user-accessible pages, in frames that follow one
another, and the buffer is as long. -/
structure Consecutive (m : Memory) (pdt buf count n : ℕ) : Prop where
  le : n ≤ count
  top : buf + n ≤ word32
  page : ∃ f, f + pageOffset buf + n ≤ word32 ∧
    ∀ i, 4096 * i < pageOffset buf + n → UserPage m pdt (buf / 4096 + i) (f + 4096 * i)

section Target
variable {m : Memory} {pdt buf count o v : ℕ}

theorem mmuGetPhysicalAddressPdt_lt (m : Memory) (v pdt : ℕ) :
    mmuGetPhysicalAddressPdt m v pdt < word32 := by
  rw [mmuGetPhysicalAddressPdt, word32]
  rcases pageOf m pdt v with _ | e
  · rw [Option.elim_none]
    decide
  · have h1 := e.isPage_frame.aligned
    have h2 := e.isPage_frame.top
    simp only [Option.elim_some, pageOffset]
    omega

/-- The flat pointer, as a frame and a place in it. -/
theorem flat_eq (m : Memory) (pdt buf o : ℕ) :
    (mmuGetPhysicalAddressPdt m buf pdt + o) % word32 =
      targetFrame m pdt buf o + targetOffset m pdt buf o ∧
    targetFrame m pdt buf o % 4096 = 0 ∧ targetOffset m pdt buf o < 4096 := by
  rw [mmuGetPhysicalAddressPdt, targetFrame, targetOffset, word32]
  rcases pageOf m pdt buf with _ | e
  · simp only [Option.elim_none]
    omega
  · have h1 := e.isPage_frame.aligned
    simp only [Option.elim_some]
    omega

/-- The accessible pages of the buffer, by their numbers. -/
theorem backs_iff {f p : ℕ} (hf : f % 4096 = 0) (hp : p < 4096) :
    Backs m pdt buf count (f + p) ↔ ∃ j, UserPage m pdt j f ∧ 4096 * j + p < word32 ∧
      buf ≤ 4096 * j + p ∧ 4096 * j + p < buf + count := by
  have hpage : ∀ j q, q < 4096 → pageOf m pdt (4096 * j + q) = pageOf m pdt (4096 * j) ∧
      userAccessible m pdt (4096 * j + q) = userAccessible m pdt (4096 * j) := by
    intro j q hq
    have h1 : pdIndex (4096 * j + q) = pdIndex (4096 * j) := by simp only [pdIndex]; omega
    have h2 : ptIndex (4096 * j + q) = ptIndex (4096 * j) := by simp only [ptIndex]; omega
    have h3 : pageOf m pdt (4096 * j + q) = pageOf m pdt (4096 * j) := by
      rw [pageOf, pageOf, h1, h2]
    exact ⟨h3, by rw [userAccessible, userAccessible, h1, h3]⟩
  constructor
  · rintro ⟨v, hle, hlt, htop, huser, hphys⟩
    have hsplit : 4096 * (v / 4096) + v % 4096 = v := Nat.div_add_mod v 4096
    obtain ⟨h1, h2⟩ := hpage (v / 4096) (v % 4096) (Nat.mod_lt _ (by decide))
    rw [hsplit] at h1 h2
    obtain ⟨e, he⟩ : ∃ e, pageOf m pdt v = some e := by
      rw [userAccessible, Bool.and_eq_true, Option.any_eq_true] at huser
      obtain ⟨-, e, he, -⟩ := huser
      exact ⟨e, he⟩
    rw [mmuGetPhysicalAddressPdt, he, Option.elim_some, pageOffset] at hphys
    have h3 := e.isPage_frame.aligned
    obtain ⟨rfl, rfl⟩ : e.frame = f ∧ v % 4096 = p := by omega
    refine ⟨v / 4096, ⟨?_, ?_⟩, by omega, by omega, by omega⟩
    · rw [← h2]
      exact huser
    · rw [← h1, he, Option.map_some]
  · rintro ⟨j, ⟨huser, hframe⟩, htop, hle, hlt⟩
    obtain ⟨e, he, rfl⟩ := Option.map_eq_some_iff.mp hframe
    obtain ⟨h1, h2⟩ := hpage j p hp
    refine ⟨4096 * j + p, hle, hlt, htop, h2.trans huser, ?_⟩
    rw [mmuGetPhysicalAddressPdt, h1, he, Option.elim_some, pageOffset]
    omega

theorem backs_flat_iff : Backs m pdt buf count
    ((mmuGetPhysicalAddressPdt m buf pdt + o) % word32) ↔ Lands m pdt buf count o := by
  obtain ⟨heq, hframe, hplace⟩ := flat_eq m pdt buf o
  rw [heq]
  exact backs_iff hframe hplace

theorem Consecutive.lands {n : ℕ} (h : Consecutive m pdt buf count n) (ho : o < n) :
    Lands m pdt buf count o := by
  obtain ⟨hle, htop, f, hlast, hpage⟩ := h
  have hbuf : pageOf m pdt (4096 * (buf / 4096)) = pageOf m pdt buf := by
    have h1 : pdIndex (4096 * (buf / 4096)) = pdIndex buf := by simp only [pdIndex]; omega
    have h2 : ptIndex (4096 * (buf / 4096)) = ptIndex buf := by simp only [ptIndex]; omega
    rw [pageOf, pageOf, h1, h2]
  obtain ⟨-, hfirst⟩ := hpage 0 (by omega)
  rw [Nat.add_zero, Nat.mul_zero, Nat.add_zero, hbuf] at hfirst
  obtain ⟨e, he, rfl⟩ := Option.map_eq_some_iff.mp hfirst
  have hframe : targetFrame m pdt buf o = e.frame + 4096 * ((pageOffset buf + o) / 4096) := by
    rw [targetFrame, he, Option.elim_some, Nat.mod_eq_of_lt (by omega), Nat.mul_comm]
  have hplace : targetOffset m pdt buf o = (pageOffset buf + o) % 4096 := by
    rw [targetOffset, he, Option.elim_some]
  refine ⟨buf / 4096 + (pageOffset buf + o) / 4096, ?_, ?_, ?_, ?_⟩
  · rw [hframe]
    exact hpage _ (by omega)
  all_goals
    rw [hplace]
    simp only [pageOffset] at *
    omega

end Target

/-- The data transfer of `syscall_read` stays inside the user buffer exactly when each byte that
is due is there already or lands in one of the buffer's pages: these have the frames, counted on
from the first one, that the flat pointer leads to. So it does when the bytes due fit into the
buffer and its pages are user-accessible and lie in consecutive frames. -/
theorem syscallRead_contained_iff {m m' : Memory} {pdt buf count : ℕ} {fd fd' : FileDescriptor}
    {ret : ℤ} (hcount : count < word32)
    (h : syscallRead m pdt fd buf count = some (ret, fd', m')) :
    (Contained m m' pdt buf count ↔ DueInside m pdt buf count (fd.due count)) ∧
      ∀ n, (∀ d ∈ fd.due count, d.2 < n) → Consecutive m pdt buf count n →
        Contained m m' pdt buf count := by
  rw [syscallRead, Option.map_eq_some_iff] at h
  obtain ⟨⟨ret', fd₁, ts⟩, hts, heq⟩ := h
  simp only [Prod.mk.injEq] at heq
  obtain ⟨rfl, rfl, rfl⟩ := heq
  have hoff := read_offsets hcount hts
  obtain rfl := read_due hcount hts
  have hiff : Contained m (storeAll m (mmuGetPhysicalAddressPdt m buf pdt) (fd.due count)) pdt buf
      count ↔ DueInside m pdt buf count (fd.due count) := by
    constructor
    · intro hc d hd
      rw [← (flat_eq m pdt buf d.2).1, ← backs_flat_iff]
      refine or_iff_not_imp_right.mpr fun hne => hc _ ?_
      rw [storeAll_of_mem hoff hd]
      exact Ne.symm hne
    · intro hf x hx
      by_contra hout
      refine hx (storeAll_of_not_mem _ (fun d hd hxd => hout ?_) m)
      subst hxd
      rcases hf d hd with hlands | hthere
      · exact backs_flat_iff.mpr hlands
      · rw [← (flat_eq m pdt buf d.2).1] at hthere
        rw [storeAll_of_mem hoff hd] at hx
        exact absurd hthere.symm hx
  exact ⟨hiff, fun n hn hc => hiff.mpr fun d hd => .inl (hc.lands (hn d hd))⟩

/-- A directory at `0x420000` that maps the first two user pages, the second one to
the frame `second`. -/
def twoPageMemory (second : ℕ) : Memory :=
  setEntry (setEntry (setEntry (fun _ => 0) 0x420000 (userEntry 0x421000)) 0x421000
    (userEntry 0x422000)) 0x421004 (userEntry second)

/-- A regular file of the two bytes 1 and 2. -/
def twoByteFile : FileDescriptor where
  used := true
  type := .ifreg
  fs :=
    { read := fun count offset =>
        ((([1, 2].drop offset).take count).length, ([1, 2].drop offset).take count)
      readdir := fun _ => (-1, [], 0, 0)
      read_le := fun count offset => by simp
      name_lt := fun _ => by simp }
  tty := none
  fb := none
  offset := 0
  accessRead := true

/-- The two bytes go to the last byte of one page and the first of the next frame,
which here is the next page. -/
theorem syscallRead_contained_consecutive :
    ∃ ret fd' m', syscallRead (twoPageMemory 0x423000) 0x420000 twoByteFile 0xfff 2 =
      some (ret, fd', m') ∧ Contained (twoPageMemory 0x423000) m' 0x420000 0xfff 2 := by
  have hread : read twoByteFile 2 =
      some (2, { twoByteFile with offset := 2 }, [(1, 0), (2, 1)]) := rfl
  have hcall := congrArg (Option.map fun r => (r.1, r.2.1, storeAll (twoPageMemory 0x423000)
    (mmuGetPhysicalAddressPdt (twoPageMemory 0x423000) 0xfff 0x420000) r.2.2)) hread
  refine ⟨_, _, _, hcall, (syscallRead_contained_iff (by decide) hcall).2 2 ?_ ?_⟩
  · rw [← read_due (by decide) hread]
    decide
  · refine ⟨le_rfl, by decide, 0x422000, by decide, fun i hi => ?_⟩
    have hi : i = 0 ∨ i = 1 := by
      simp only [pageOffset] at hi
      omega
    rcases hi with rfl | rfl
    · exact ⟨by decide, by decide⟩
    · exact ⟨by decide, by decide⟩

/-- When the second page lies elsewhere, the second byte goes to a frame that is not
the buffer's. -/
theorem syscallRead_leaves_buffer :
    ¬ ∀ m m' pdt buf count fd fd' ret, count < word32 →
      syscallRead m pdt fd buf count = some (ret, fd', m') → Contained m m' pdt buf count := by
  intro h
  have hc := h (twoPageMemory 0x430000) _ 0x420000 0xfff 2 twoByteFile _ _ (by decide) rfl
  obtain ⟨v, h1, h2, -, -, hv⟩ := hc 0x423000 (by decide)
  have hvs : v = 0xfff ∨ v = 0x1000 := by omega
  rcases hvs with rfl | rfl
  · exact absurd hv (by decide)
  · exact absurd hv (by decide)

end DosKernel
